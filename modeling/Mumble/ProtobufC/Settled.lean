import Mumble.ProtobufC.Safety
import Mumble.ProtobufC.RoundTrip

/-! A message that was unpacked, from whatever data, has no null pointer where a message
must be, and nothing is lost when it is packed again. -/
namespace ProtobufC
open CExec

section Members
variable {δ : Type} {μ : δ → Type}

/-- A member of which nothing is lost on the way, if the messages inside are `good`. -/
def settledMember (good : (d : δ) → μ d → Prop) :
    (t : FieldType δ) → t.Default → (label : Label) → t.Member μ label → Prop
  | .string, _, .required, (s : Option CString) => s ≠ none
  | .message d, _, .required, (m : Option (μ d)) => ∃ inner, m = some inner ∧ good d inner
  | .scalar t, value, .optional, (has, v) => has = true ∨ v = value.getD t.zero
  | .bytes, _, .optional, (has, b) => has = true ∨ b = []
  | .message d, _, .optional, (m : Option (μ d)) => ∀ inner ∈ m, good d inner
  | .message d, _, .repeated, (array : List (μ d)) => ∀ inner ∈ array, good d inner
  | .scalar _, _, .required, _ | .bytes, _, .required, _ | .string, _, .optional, _
  | .scalar _, _, .repeated, _ | .string, _, .repeated, _ | .bytes, _, .repeated, _ => True

/-- A member while it is unpacked: what is required may not have been read yet. -/
def begunMember (good : (d : δ) → μ d → Prop) (t : FieldType δ) (value : t.Default) :
    (label : Label) → t.Member μ label → Prop
  | .required, m =>
    match t, m with
    | .message d, (m : Option (μ d)) => ∀ inner ∈ m, good d inner
    | .scalar _, _ | .string, _ | .bytes, _ => True
  | .optional, m => settledMember good t value .optional m
  | .repeated, m => settledMember good t value .repeated m

/-- A value that was read. -/
def goodElement (good : (d : δ) → μ d → Prop) : (t : FieldType δ) → t.Element μ → Prop
  | .message d, m => good d m
  | .scalar _, _ | .string, _ | .bytes, _ => True

variable {good : (d : δ) → μ d → Prop} {merge : (d : δ) → μ d → μ d → μ d}

theorem begunMember.of_settled {t : FieldType δ} {value : t.Default} {label : Label} {m : t.Member μ label}
    (settled : settledMember good t value label m) : begunMember good t value label m := by
  cases label with
  | required =>
    cases t with
    | message d =>
      obtain ⟨inner, rfl, ready⟩ := settled
      intro other same
      cases same
      exact ready
    | scalar => trivial
    | string => trivial
    | bytes => trivial
  | optional => exact settled
  | repeated => exact settled

theorem initialMember_begun (t : FieldType δ) (value : t.Default) (label : Label) :
    begunMember good t value label (initialMember t value label) := by
  cases label with
  | required =>
    cases t with
    | message => exact nofun
    | scalar => trivial
    | string => trivial
    | bytes => trivial
  | optional =>
    cases t with
    | scalar => exact .inr rfl
    | string => trivial
    | bytes => exact .inr rfl
    | message => exact nofun
  | repeated =>
    cases t with
    | message => exact nofun
    | scalar => trivial
    | string => trivial
    | bytes => trivial

/-- What has a default is settled from the beginning, and so is what is not required. -/
theorem initialMember_settled (t : FieldType δ) (value : t.Default) (label : Label)
    (free : label ≠ .required ∨ t.hasDefault value = true) :
    settledMember good t value label (initialMember t value label) := by
  have begun : begunMember good t value label (initialMember t value label) := initialMember_begun t value label
  cases label with
  | required =>
    have default : t.hasDefault value = true := free.resolve_left (fun different => different rfl)
    cases t with
    | scalar => trivial
    | bytes => trivial
    | string => cases default
    | message => cases default
  | optional => exact begun
  | repeated => exact begun

theorem settledMember.replace (merged : ∀ d a b, good d a → good d b → good d (merge d a b)) {t : FieldType δ}
    {value : t.Default} {before : t.Required μ} (begun : begunMember good t value .required before) {e : t.Element μ}
    (read : goodElement good t e) : settledMember good t value .required (t.replace merge before e) := by
  cases t with
  | scalar => trivial
  | string => exact Option.some_ne_none e
  | bytes => trivial
  | message d =>
    refine ⟨_, rfl, ?_⟩
    cases before with
    | none => exact read
    | some first => exact merged d first e (begun first rfl) read

theorem settledMember.set (merged : ∀ d a b, good d a → good d b → good d (merge d a b)) {t : FieldType δ}
    {value : t.Default} {before : t.Optional μ} (begun : settledMember good t value .optional before)
    {e : t.Element μ} (read : goodElement good t e) :
    settledMember good t value .optional (t.set merge before e) := by
  cases t with
  | scalar => exact .inl rfl
  | string => trivial
  | bytes => exact .inl rfl
  | message d =>
    intro inner same
    cases same
    cases before with
    | none => exact read
    | some first => exact merged d first e (begun first rfl) read

theorem settledMember.append {t : FieldType δ} {value : t.Default} {before values : List (t.Element μ)}
    (begun : settledMember good t value .repeated before) (read : ∀ e ∈ values, goodElement good t e) :
    settledMember good t value .repeated (before ++ values) := by
  cases t with
  | message d =>
    intro inner member
    exact (List.mem_append.mp member).elim (begun inner) (read inner)
  | scalar => trivial
  | string => trivial
  | bytes => trivial

theorem ite_pred {α : Type} {P : α → Prop} {c : Prop} [Decidable c] {a b : α} (first : P a) (second : P b) :
    P (if c then a else b) := by
  split_ifs
  · exact first
  · exact second

/-- Merging keeps what is settled. -/
theorem mergeMember_settled (merged : ∀ d a b, good d a → good d b → good d (merge d a b)) {t : FieldType δ}
    {value : t.Default} {label : Label} {earlier latter : t.Member μ label}
    (first : settledMember good t value label earlier) (second : settledMember good t value label latter) :
    settledMember good t value label (mergeMember merge t label earlier latter) := by
  cases label with
  | required => cases t <;> exact second
  | repeated =>
    cases t with
    | message d =>
      intro inner member
      exact (List.mem_append.mp member).elim (first inner) (second inner)
    | scalar => trivial
    | string => trivial
    | bytes => trivial
  | optional =>
    cases t with
    | scalar t => exact ite_pred (P := settledMember good (.scalar t) value .optional) first second
    | string => trivial
    | bytes => exact ite_pred (P := settledMember good .bytes value .optional) first second
    | message d =>
      cases earlier with
      | none => exact second
      | some a =>
        cases latter with
        | none => exact first
        | some b =>
          intro inner same
          cases same
          exact merged d a b (first a rfl) (second b rfl)

end Members

section Parse
variable {δ : Type} {μ : δ → Type} {good : (d : δ) → μ d → Prop}
  {subUnpack : (d : δ) → Nat → List UInt8 → Run (Option (μ d))} {merge : (d : δ) → μ d → μ d → μ d}

/-- What is relied on of the messages inside. -/
structure SubGood (good : (d : δ) → μ d → Prop) (subUnpack : (d : δ) → Nat → List UInt8 → Run (Option (μ d)))
    (merge : (d : δ) → μ d → μ d → μ d) : Prop where
  read : ∀ d len data m, len ≤ data.length → len < 2 ^ 64 → subUnpack d len data = .ok (some m) → good d m
  merged : ∀ d a b, good d a → good d b → good d (merge d a b)

theorem parseElement_good (sub : SubGood good subUnpack merge) {fields : Nat} {r : WireRecord}
    {s : ScannedMember fields} (kept : Kept r s) {t : FieldType δ} {e : t.Element μ}
    (read : parseElement subUnpack s t = .ok (some e)) : goodElement good t e := by
  cases t with
  | message d =>
    obtain ⟨len, -, rest, data⟩ := kept.body
    by_cases wire : s.wireType = wireTypeLengthPrefixed
    · have inner := (if_pos wire).symm.trans read
      rw [len] at inner
      refine sub.read d _ _ e ?_ ?_ inner
      · rw [data, List.length_append]
        omega
      · have short := r.payload_short
        rw [WireRecord.body, List.length_drop]
        omega
    · cases (if_neg wire).symm.trans read
  | scalar => trivial
  | string => trivial
  | bytes => trivial

/-- A member that was read is settled. -/
theorem parseField_settled (sub : SubGood good subUnpack merge) {d : MessageDescriptor δ} {f : FieldDescriptor δ}
    {r : WireRecord} {s : ScannedMember d.nFields} (kept : Kept r s) {capacity : Nat}
    {before next : f.type.Member μ f.label} (begun : begunMember good f.type f.defaultValue f.label before)
    (parsed : parseField subUnpack merge s f capacity before = .ok (some next)) :
    settledMember good f.type f.defaultValue f.label next := by
  obtain ⟨id, label, type, value, packed, numbered, packable⟩ := f
  cases label with
  | required =>
    obtain ⟨element, read, rest⟩ := bind_eq_ok.mp parsed
    cases element with
    | none => cases rest
    | some e =>
      cases rest
      exact settledMember.replace sub.merged begun (parseElement_good sub kept read)
  | optional =>
    obtain ⟨element, read, rest⟩ := bind_eq_ok.mp parsed
    cases element with
    | none => cases rest
    | some e =>
      cases rest
      exact settledMember.set sub.merged begun (parseElement_good sub kept read)
  | repeated =>
    let f : FieldDescriptor δ := ⟨id, .repeated, type, value, packed, numbered, packable⟩
    by_cases several : readPacked f s.wireType = true
    · obtain ⟨values, read, rest⟩ := bind_eq_ok.mp ((if_pos several).symm.trans parsed)
      cases values with
      | none => cases rest
      | some values =>
        cases rest
        refine settledMember.append begun ?_
        intro e _
        cases type with
        | message => cases read
        | scalar => trivial
        | string => trivial
        | bytes => trivial
    · obtain ⟨element, read, rest⟩ := bind_eq_ok.mp ((if_neg several).symm.trans parsed)
      cases element with
      | none => cases rest
      | some e =>
        obtain ⟨_, _, rest⟩ := bind_eq_ok.mp rest
        cases rest
        refine settledMember.append begun ?_
        intro other member
        rw [List.mem_singleton.mp member]
        exact parseElement_good sub kept read

variable {d : MessageDescriptor δ}

/-- The member of a field in a message. -/
def Settled (good : (d : δ) → μ d → Prop) (message : Record μ d) (i : Fin d.nFields) : Prop :=
  settledMember good (d.field i).type (d.field i).defaultValue (d.field i).label (message.member i)

def Begun (good : (d : δ) → μ d → Prop) (message : Record μ d) (i : Fin d.nFields) : Prop :=
  begunMember good (d.field i).type (d.field i).defaultValue (d.field i).label (message.member i)

/-- What is not recognized is the data of other fields. -/
def Foreign (d : MessageDescriptor δ) (field : UnknownField) : Prop :=
  fieldOf d field.tag = none ∧ ∃ prefLen, Payload field.wireType field.data prefLen

/-- One member of the data settles its field, and leaves the others as they are. -/
theorem parseMember_settled (sub : SubGood good subUnpack merge) {capacities : Fin d.nFields → Nat}
    {r : WireRecord} {s : ScannedMember d.nFields} (scanned : Scanned r s) {message next : Record μ d}
    (begun : ∀ i, Begun good message i) (foreign : ∀ field ∈ message.unknown, Foreign d field)
    (parsed : parseMember subUnpack merge s capacities message = .ok (some next)) :
    (∀ i, Begun good next i) ∧ (∀ i, Settled good message i ∨ fieldOf d r.tag = some i → Settled good next i) ∧
      ∀ field ∈ next.unknown, Foreign d field := by
  rw [parseMember, scanned.field] at parsed
  cases found : fieldOf d r.tag with
  | none =>
    rw [found] at parsed
    obtain ⟨data, read, rest⟩ := bind_eq_ok.mp parsed
    cases rest
    refine ⟨begun, fun i known => known.resolve_right (Option.some_ne_none i).symm, fun field member => ?_⟩
    rcases List.mem_append.mp member with member | member
    · exact foreign field member
    · obtain ⟨after, payload⟩ := scanned.data
      rw [payload, scanned.len, slice_length_append] at read
      cases read
      rw [List.mem_singleton.mp member]
      refine ⟨scanned.tag ▸ found, r.prefLen, ?_⟩
      rw [scanned.wireType]
      exact r.extent
  | some i =>
    rw [found] at parsed
    obtain ⟨member, read, rest⟩ := bind_eq_ok.mp parsed
    cases member with
    | none => cases rest
    | some member =>
      cases rest
      have settled := parseField_settled sub scanned.toKept (begun i) read
      have here : Settled good { message with member := Function.update message.member i member } i := by
        unfold Settled
        dsimp only
        rw [Function.update_self]
        exact settled
      refine ⟨fun j => ?_, fun j known => ?_, foreign⟩
      · by_cases same : j = i
        · subst same
          exact .of_settled here
        · unfold Begun
          dsimp only
          rw [Function.update_of_ne same]
          exact begun j
      · by_cases same : j = i
        · subst same
          exact here
        · unfold Settled
          dsimp only
          rw [Function.update_of_ne same]
          exact known.resolve_right fun other => same (Option.some.inj other).symm

theorem parseMembers_settled (sub : SubGood good subUnpack merge) {capacities : Fin d.nFields → Nat}
    {records : List WireRecord} {members : List (ScannedMember d.nFields)}
    (scanned : List.Forall₂ Scanned records members) {message final : Record μ d}
    (begun : ∀ i, Begun good message i) (foreign : ∀ field ∈ message.unknown, Foreign d field)
    (parsed : parseMembers subUnpack merge capacities members message = .ok (some final)) :
    (∀ i, Settled good message i ∨ (∃ r ∈ records, fieldOf d r.tag = some i) → Settled good final i) ∧
      ∀ field ∈ final.unknown, Foreign d field := by
  induction scanned generalizing message with
  | nil =>
    cases parsed
    exact ⟨fun i known => known.resolve_right nofun, foreign⟩
  | @cons r s records members here _ ih =>
    rw [parseMembers] at parsed
    obtain ⟨next, first, rest⟩ := bind_eq_ok.mp parsed
    cases next with
    | none => cases rest
    | some next =>
      obtain ⟨begun_next, settled_next, foreign_next⟩ := parseMember_settled sub here begun foreign first
      obtain ⟨settled_final, foreign_final⟩ := ih begun_next foreign_next rest
      refine ⟨fun i known => settled_final i ?_, foreign_final⟩
      rcases known with settled | ⟨other, member, found⟩
      · exact .inl (settled_next i (.inl settled))
      · rcases List.mem_cons.mp member with rfl | member
        · exact .inl (settled_next i (.inr found))
        · exact .inr ⟨other, member, found⟩

/-- A message that was read is settled in all its members. -/
theorem recordUnpack_settled (sub : SubGood good subUnpack merge) {len : Nat} {data : List UInt8}
    (inside : len ≤ data.length) (small : len < 2 ^ 64) {message : Record μ d}
    (read : recordUnpack subUnpack merge d len data = .ok (some message)) :
    (∀ i, Settled good message i) ∧ ∀ field ∈ message.unknown, Foreign d field := by
  rw [recordUnpack] at read
  rcases scanMembers_cases (d := d) inside small with
    refused | ⟨scan, records, scanned, accepted⟩ | ⟨-, fault⟩
  · rw [refused] at read
    cases read
  · rw [scanned, ok_bind] at read
    dsimp only at read
    split_ifs at read with seen
    case neg => cases read
    have begun (i : Fin d.nFields) : Begun good (messageInit d) i :=
      initialMember_begun (d.field i).type (d.field i).defaultValue (d.field i).label
    obtain ⟨settled, foreign⟩ := parseMembers_settled sub accepted.members begun
      (fun _ member => absurd member List.not_mem_nil) read
    refine ⟨fun i => settled i ?_, foreign⟩
    rw [requiredSeen, List.all_eq_true] at seen
    have free := seen i (List.mem_finRange i)
    simp only [Bool.or_eq_true, decide_eq_true_eq] at free
    rcases free with free | marked
    · exact .inl (initialMember_settled _ _ _ free)
    · rw [accepted.seen i, List.any_eq_true] at marked
      obtain ⟨r, member, found⟩ := marked
      exact .inr ⟨r, member, of_decide_eq_true found⟩
  · rw [fault] at read
    cases read

end Parse

section Whole
variable {δ : Type} {μ : δ → Type} {d : MessageDescriptor δ}

/-- Merging two messages that were read gives one that could have been read. -/
theorem recordMerge_settled {good : (d : δ) → μ d → Prop} {merge : (d : δ) → μ d → μ d → μ d}
    (merged : ∀ d a b, good d a → good d b → good d (merge d a b)) {earlier latter : Record μ d}
    (first : ∀ i, Settled good earlier i) (second : ∀ i, Settled good latter i) (i : Fin d.nFields) :
    Settled good (recordMerge merge d earlier latter) i :=
  mergeMember_settled merged (first i) (second i)

variable {good : (d : δ) → μ d → Prop} {sent : (d : δ) → μ d → μ d} {complete : (d : δ) → μ d → Prop}

/-- Settled members are complete, and the other end has them as they are. -/
theorem settledMember.unchanged (sub : ∀ d inner, good d inner → complete d inner ∧ sent d inner = inner)
    {t : FieldType δ} {value : t.Default} {label : Label} {m : t.Member μ label}
    (settled : settledMember good t value label m) :
    completeMember complete t label m ∧ sentMember sent t value label m = m := by
  cases label with
  | required =>
    cases t with
    | scalar => exact ⟨trivial, rfl⟩
    | bytes => exact ⟨trivial, rfl⟩
    | string =>
      obtain ⟨s, rfl⟩ := Option.ne_none_iff_exists'.mp settled
      exact ⟨trivial, rfl⟩
    | message d =>
      obtain ⟨inner, rfl, ready⟩ := settled
      obtain ⟨whole, same⟩ := sub d inner ready
      exact ⟨⟨inner, rfl, whole⟩, congrArg some same⟩
  | optional =>
    cases t with
    | scalar t =>
      obtain ⟨has, v⟩ := m
      refine ⟨trivial, ?_⟩
      rcases settled with rfl | rfl
      · rfl
      · cases has <;> rfl
    | bytes =>
      obtain ⟨has, b⟩ := m
      refine ⟨trivial, ?_⟩
      rcases settled with rfl | rfl
      · rfl
      · cases has <;> rfl
    | string => exact ⟨trivial, rfl⟩
    | message d =>
      cases m with
      | none => exact ⟨nofun, rfl⟩
      | some inner =>
        obtain ⟨whole, same⟩ := sub d inner (settled inner rfl)
        exact ⟨fun other found => Option.some.inj found ▸ whole, congrArg some same⟩
  | repeated =>
    cases t with
    | scalar => exact ⟨trivial, rfl⟩
    | bytes => exact ⟨trivial, rfl⟩
    | string => exact ⟨trivial, rfl⟩
    | message d =>
      refine ⟨fun inner member => (sub d inner (settled inner member)).1, ?_⟩
      exact (List.map_congr_left fun inner member => (sub d inner (settled inner member)).2).trans (List.map_id m)

theorem Settled.unchanged (sub : ∀ d inner, good d inner → complete d inner ∧ sent d inner = inner)
    {message : Record μ d} (settled : ∀ i, Settled good message i)
    (foreign : ∀ field ∈ message.unknown, Foreign d field) :
    CompleteRecord complete d message ∧ sentRecord sent d message = message := by
  refine ⟨⟨fun i => (settledMember.unchanged sub (settled i)).1, foreign⟩, ?_⟩
  obtain ⟨member, unknown⟩ := message
  rw [sentRecord]
  congr 1
  funext i
  exact (settledMember.unchanged sub (settled i)).2

end Whole

/-- A message that is settled, with all messages inside it. -/
def Proper : (n : Nat) → (d : Descriptor n) → Message n d → Prop
  | 0, d, _ => nomatch d
  | n + 1, d, message => (∀ i, Settled (Proper n) (d := d) message i) ∧ ∀ field ∈ message.unknown, Foreign d field

theorem messageUnpack_proper (n : Nat) : SubGood (Proper n) (messageUnpack n) (mergeMessages n) := by
  induction n with
  | zero => exact ⟨(fun d => nomatch d), (fun d => nomatch d)⟩
  | succ n ih =>
    refine ⟨fun d len data m inside small read => recordUnpack_settled ih inside small read, ?_⟩
    intro d earlier latter first second
    exact ⟨recordMerge_settled ih.merged first.1 second.1, second.2⟩

theorem Proper.unchanged (n : Nat) (d : Descriptor n) {message : Message n d} (proper : Proper n d message) :
    Complete n d message ∧ sentMessage n d message = message := by
  induction n with
  | zero => exact nomatch d
  | succ n ih => exact Settled.unchanged (fun d inner ready => ih d ready) proper.1 proper.2

section Sent
variable {δ : Type} {μ : δ → Type} {good : (d : δ) → μ d → Prop} {sent : (d : δ) → μ d → μ d}
  {complete : (d : δ) → μ d → Prop} {subPack : (d : δ) → μ d → List UInt8}

/-- What the other end has of a complete member is settled. -/
theorem sentMember_settled (sub : ∀ d inner, complete d inner → good d (sent d inner)) {t : FieldType δ}
    {value : t.Default} {label : Label} {m : t.Member μ label} (ready : completeMember complete t label m) :
    settledMember good t value label (sentMember sent t value label m) := by
  cases label with
  | required =>
    cases t with
    | scalar => trivial
    | bytes => trivial
    | string => exact Option.some_ne_none _
    | message d =>
      obtain ⟨inner, rfl, whole⟩ := ready
      exact ⟨sent d inner, rfl, sub d inner whole⟩
  | optional =>
    cases t with
    | scalar t =>
      obtain ⟨has, v⟩ := m
      cases has with
      | false => exact .inr rfl
      | true => exact .inl rfl
    | bytes =>
      obtain ⟨has, b⟩ := m
      cases has with
      | false => exact .inr rfl
      | true => exact .inl rfl
    | string => trivial
    | message d =>
      intro inner found
      obtain ⟨before, rfl, rfl⟩ := Option.map_eq_some_iff.mp found
      exact sub d before (ready before rfl)
  | repeated =>
    cases t with
    | scalar => trivial
    | bytes => trivial
    | string => trivial
    | message d =>
      intro inner member
      obtain ⟨before, inside, rfl⟩ := List.mem_map.mp member
      exact sub d before (ready before inside)

theorem requiredPack_element (sub : ∀ d m, subPack d (sent d m) = subPack d m) (t : FieldType δ) (e : t.Element μ) :
    requiredPack subPack t (t.required (sentElement sent t e)) = requiredPack subPack t (t.required e) := by
  cases t with
  | message d => exact congrArg prefixedPack (sub d e)
  | scalar => rfl
  | string => rfl
  | bytes => rfl

/-- The other end packs a member to the same bytes. -/
theorem fieldPack_sentMember (sub : ∀ d m, subPack d (sent d m) = subPack d m) (f : FieldDescriptor δ)
    (m : f.type.Member μ f.label) :
    fieldPack subPack f (sentMember sent f.type f.defaultValue f.label m) = fieldPack subPack f m := by
  obtain ⟨id, label, type, value, packed, numbered, packable⟩ := f
  cases label with
  | required =>
    have same : requiredPack subPack type (sentMember sent type value .required m) = requiredPack subPack type m := by
      cases type with
      | scalar => rfl
      | bytes => rfl
      | string => cases m <;> rfl
      | message d =>
        cases m with
        | none => rfl
        | some inner => exact congrArg prefixedPack (sub d inner)
    exact congrArg (wireTagPack id type.wireType ++ ·) same
  | optional =>
    cases type with
    | scalar t =>
      obtain ⟨has, v⟩ := m
      cases has <;> rfl
    | bytes =>
      obtain ⟨has, b⟩ := m
      cases has <;> rfl
    | string => rfl
    | message d =>
      cases m with
      | none => rfl
      | some inner =>
        have same := congrArg prefixedPack (sub d inner)
        exact congrArg (wireTagPack id wireTypeLengthPrefixed ++ ·) same
  | repeated =>
    change List (type.Element μ) at m
    have mapped : sentMember sent type value .repeated m = m.map (sentElement sent type) := sentMember_repeated m
    refine (congrArg (repeatedFieldPack subPack ⟨id, .repeated, type, value, packed, numbered, packable⟩)
      mapped).trans ?_
    change repeatedFieldPack subPack ⟨id, .repeated, type, value, packed, numbered, packable⟩ _ =
      repeatedFieldPack subPack ⟨id, .repeated, type, value, packed, numbered, packable⟩ m
    unfold repeatedFieldPack requiredFieldPack
    simp only [List.length_map, List.flatMap_map, requiredPack_element sub]

end Sent

theorem sentMessage_proper (n : Nat) (d : Descriptor n) {message : Message n d} (complete : Complete n d message) :
    Proper n d (sentMessage n d message) := by
  induction n with
  | zero => exact nomatch d
  | succ n ih =>
    exact ⟨fun i => sentMember_settled (fun d _ ready => ih d ready) (complete.members i), complete.unknown⟩

/-- What the other end has is packed to the same bytes. -/
theorem messagePack_sentMessage (n : Nat) (d : Descriptor n) (message : Message n d) :
    messagePack n d (sentMessage n d message) = messagePack n d message := by
  induction n with
  | zero => exact nomatch d
  | succ n ih =>
    have fields : (fun i => fieldPack (messagePack n) (MessageDescriptor.field d i)
        ((sentMessage (n + 1) d message).member i)) =
          fun i => fieldPack (messagePack n) (MessageDescriptor.field d i) (message.member i) := by
      funext i
      exact fieldPack_sentMember ih (MessageDescriptor.field d i) (message.member i)
    exact congrArg (fun pack => (List.finRange _).flatMap pack ++ message.unknown.flatMap unknownFieldPack) fields

/-- Whatever data a message was read from, it is read again, with nothing lost or added,
from what it is packed to. -/
theorem messageUnpack_again (n : Nat) (d : Descriptor n) {len : Nat} {data : List UInt8} {message : Message n d}
    (inside : len ≤ data.length) (small : len < 2 ^ 64) (read : messageUnpack n d len data = .ok (some message))
    (fits : (messagePack n d message).length ≤ packLimit) (rest : List UInt8) :
    messageUnpack n d (messagePack n d message).length (messagePack n d message ++ rest) = .ok (some message) := by
  obtain ⟨complete, same⟩ := ((messageUnpack_proper n).read d len data message inside small read).unchanged
  have again := messageUnpack_messagePack n d complete fits rest
  rwa [same] at again

/-- A number that is longer than it has to be, and a default that is sent. -/
theorem messageUnpack_again_sample : ∃ message,
    messageUnpack 2 MumbleProto.permissionQuery 5 [0x08, 0x87, 0x00, 0x18, 0] = .ok (some message) ∧
      messageUnpack 2 MumbleProto.permissionQuery (messagePack 2 MumbleProto.permissionQuery message).length
        (messagePack 2 MumbleProto.permissionQuery message ++ [1]) = .ok (some message) := by
  have sizes : (messageUnpack 2 MumbleProto.permissionQuery 5 [0x08, 0x87, 0x00, 0x18, 0]).map
    (Option.map fun message => (messagePack 2 MumbleProto.permissionQuery message).length) = .ok (some 4) := by decide
  cases read : messageUnpack 2 MumbleProto.permissionQuery 5 [0x08, 0x87, 0x00, 0x18, 0] with
  | error fault =>
    rw [read] at sizes
    cases sizes
  | ok result =>
    cases result with
    | none =>
      rw [read] at sizes
      cases sizes
    | some message =>
      rw [read] at sizes
      have size : (messagePack 2 MumbleProto.permissionQuery message).length = 4 :=
        Option.some.inj (Except.ok.inj sizes)
      refine ⟨message, rfl, messageUnpack_again 2 MumbleProto.permissionQuery (by decide) (by decide) read ?_ [1]⟩
      rw [size]
      decide

section Check
variable {δ : Type} {μ : δ → Type}

/-- What `protobuf_c_message_check` looks at in a member. The strings and messages of an
array are no null pointers, and data of some bytes is none. -/
def checkMember (check : (d : δ) → μ d → Bool) : (t : FieldType δ) → (label : Label) → t.Member μ label → Bool
  | .message d, .repeated, (array : List (μ d)) => array.all (check d)
  | .message d, .required, (m : Option (μ d)) => m.any (check d)
  | .message d, .optional, (m : Option (μ d)) => m.all (check d)
  | .string, .required, (s : Option CString) => s.isSome
  | .string, .optional, _ | .string, .repeated, _ | .scalar _, _, _ | .bytes, _, _ => true

def recordCheck (check : (d : δ) → μ d → Bool) (d : MessageDescriptor δ) (message : Record μ d) : Bool :=
  (List.finRange d.nFields).all fun i => checkMember check (d.field i).type (d.field i).label (message.member i)

theorem checkMember_settled {good : (d : δ) → μ d → Prop} {check : (d : δ) → μ d → Bool}
    (sub : ∀ d inner, good d inner → check d inner = true) {t : FieldType δ} {value : t.Default} {label : Label}
    {m : t.Member μ label} (settled : settledMember good t value label m) : checkMember check t label m = true := by
  cases t with
  | scalar => rfl
  | bytes => rfl
  | string =>
    cases label with
    | required => exact Option.isSome_iff_ne_none.mpr settled
    | optional => rfl
    | repeated => rfl
  | message d =>
    cases label with
    | required =>
      obtain ⟨inner, rfl, ready⟩ := settled
      exact sub d inner ready
    | optional =>
      cases m with
      | none => rfl
      | some inner => exact sub d inner (settled inner rfl)
    | repeated => exact List.all_eq_true.mpr fun inner member => sub d inner (settled inner member)

end Check

/-- `protobuf_c_message_check`. -/
def messageCheck : (n : Nat) → (d : Descriptor n) → Message n d → Bool
  | 0, d, _ => nomatch d
  | n + 1, d, message => recordCheck (messageCheck n) d message

theorem Proper.checked (n : Nat) (d : Descriptor n) {message : Message n d} (proper : Proper n d message) :
    messageCheck n d message = true := by
  induction n with
  | zero => exact nomatch d
  | succ n ih =>
    apply List.all_eq_true.mpr
    intro i _
    exact checkMember_settled (fun d inner ready => ih d ready) (proper.1 i)

/-- Whatever the data was, a message that is read from it passes the check of the library
at every depth: no required string or message is missing. -/
theorem unpacked_checked (n : Nat) (d : Descriptor n) {len : Nat} {data : List UInt8} {message : Message n d}
    (inside : len ≤ data.length) (small : len < 2 ^ 64) (read : messageUnpack n d len data = .ok (some message)) :
    messageCheck n d message = true :=
  ((messageUnpack_proper n).read d len data message inside small read).checked

/-- A text message without all that is optional in it. -/
theorem unpacked_checked_sample : ∃ message,
    messageUnpack 2 MumbleProto.textMessage 4 [0x2A, 2, 0x68, 0x69] = .ok (some message) ∧
      messageCheck 2 MumbleProto.textMessage message = true := by
  cases read : messageUnpack 2 MumbleProto.textMessage 4 [0x2A, 2, 0x68, 0x69] with
  | error fault => cases read
  | ok result =>
    cases result with
    | none => cases read
    | some message => exact ⟨message, rfl, unpacked_checked 2 MumbleProto.textMessage (by decide) (by decide) read⟩

end ProtobufC
