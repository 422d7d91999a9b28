import Mathlib.Data.Nat.Bitwise

/-! Executions of C code that may stop without returning. A pointer into an
object is the list of the bytes from it to the end of the object, so that a
read past the end is a fault and never a value. -/
namespace CExec

/-- Why an execution does not return to its caller. -/
inductive Fault where
  | assertion
  | aborted
  | outOfBounds
  | overflow
  | endless
  deriving DecidableEq, Repr

abbrev Run := Except Fault

instance [DecidableEq α] : DecidableEq (Run α) := fun
  | .ok a, .ok b => decidable_of_iff (a = b) (by simp)
  | .error f, .error g => decidable_of_iff (f = g) (by simp)
  | .ok _, .error _ => isFalse (by simp)
  | .error _, .ok _ => isFalse (by simp)

/-- `assert(c)`, or another guard that stops the execution with `fault`. -/
def require (c : Prop) [Decidable c] (fault : Fault) : Run Unit :=
  if c then .ok () else .error fault

/-- `p[i]` for a pointer `p`. -/
def load (p : List α) (i : Nat) : Run α :=
  match p[i]? with
  | some a => .ok a
  | none => .error .outOfBounds

/-- The `n` objects that `memcpy` or a counted loop reads from `p`. -/
def slice (p : List α) (n : Nat) : Run (List α) :=
  if n ≤ p.length then .ok (p.take n) else .error .outOfBounds

/-- `memcpy` of `data` to `p + i`. -/
def store (p : List α) (i : Nat) (data : List α) : Run (List α) :=
  if i + data.length ≤ p.length then .ok (p.take i ++ data ++ p.drop (i + data.length))
  else .error .outOfBounds

/-- The conversion to a 32-bit `int`. -/
def toInt (n : Int) : Int := n.bmod (2 ^ 32)

/-- The conversion to a 32-bit `unsigned`. -/
def toUnsigned (n : Int) : Nat := (n % 2 ^ 32).toNat

/-- The conversion to a 64-bit `size_t`. -/
def toSize (n : Int) : Nat := (n % 2 ^ 64).toNat

theorem toInt_of_small (low : -2 ^ 31 ≤ n) (high : n < 2 ^ 31) : toInt n = n := by
  rw [toInt, Int.bmod_def]
  split <;> omega

theorem toUnsigned_of_small (low : 0 ≤ n) (high : n < 2 ^ 32) : toUnsigned n = n.toNat := by
  rw [toUnsigned, Int.emod_eq_of_lt low high]

theorem toSize_of_small (low : 0 ≤ n) (high : n < 2 ^ 64) : toSize n = n.toNat := by
  rw [toSize, Int.emod_eq_of_lt low high]

theorem toUnsigned_natCast (n : Nat) : toUnsigned n = n % 2 ^ 32 := by
  rw [toUnsigned]
  omega

theorem toSize_natCast (n : Nat) : toSize n = n % 2 ^ 64 := by
  rw [toSize]
  omega

@[simp] theorem ok_bind (a : α) (f : α → Run β) : (Except.ok a >>= f) = f a := rfl

@[simp] theorem error_bind (e : Fault) (f : α → Run β) : ((Except.error e : Run α) >>= f) = .error e := rfl

@[simp] theorem pure_eq_ok (a : α) : (pure a : Run α) = .ok a := rfl

theorem bind_ok_eq_map (x : Run α) (f : α → β) : (x >>= fun a => .ok (f a)) = x.map f := by
  cases x with
  | ok a => rfl
  | error fault => rfl

theorem map_eq_error {x : Run α} {f : α → β} {fault : Fault} : x.map f = .error fault ↔ x = .error fault := by
  cases x with
  | ok a => exact iff_of_false nofun nofun
  | error stopped => rw [Except.map, Except.error.injEq, Except.error.injEq]

theorem bind_eq_ok {x : Run α} {f : α → Run β} :
    (x >>= f) = .ok b ↔ ∃ a, x = .ok a ∧ f a = .ok b := by
  cases x with
  | error e => simp
  | ok a => simp

theorem ok_ne_error {a : α} {fault : Fault} : (.ok a : Run α) ≠ .error fault := by
  rintro ⟨⟩

theorem error_ne_error {fault other : Fault} (different : fault ≠ other) :
    (.error fault : Run α) ≠ .error other := by
  rintro ⟨⟩
  exact different rfl

theorem require_eq_ok {c : Prop} [Decidable c] {fault : Fault} {u : Unit} :
    require c fault = .ok u ↔ c := by
  unfold require
  split <;> simp_all

@[simp] theorem require_true {c : Prop} [Decidable c] {fault : Fault} (h : c) :
    require c fault = .ok () := if_pos h

@[simp] theorem require_false {c : Prop} [Decidable c] {fault : Fault} (h : ¬ c) :
    require c fault = .error fault := if_neg h

@[simp] theorem load_zero (a : α) (p : List α) : load (a :: p) 0 = .ok a := rfl

@[simp] theorem load_succ (a : α) (p : List α) (i : Nat) : load (a :: p) (i + 1) = load p i := rfl

theorem load_outside {p : List α} {i : Nat} : load p i = .error .outOfBounds ↔ p.length ≤ i := by
  rw [← List.getElem?_eq_none_iff, load]
  split
  next found => simp [found]
  next missing => simp [missing]

/-- A load that is out of bounds, or after which another one is. -/
theorem load_bind_outside {p : List α} {i : Nat} {f : α → Run β}
    (outside : i < p.length → ∀ a, f a = .error .outOfBounds) :
    (load p i >>= f) = .error .outOfBounds := by
  by_cases inside : i < p.length
  · rw [load, List.getElem?_eq_getElem inside]
    exact outside inside _
  · rw [load_outside.mpr (Nat.le_of_not_lt inside)]
    rfl

theorem slice_outside {p : List α} (h : p.length < n) : slice p n = .error .outOfBounds :=
  if_neg (Nat.not_le_of_lt h)

theorem slice_of_le {p : List α} (h : n ≤ p.length) : slice p n = .ok (p.take n) := if_pos h

@[simp] theorem slice_length_append (p q : List α) : slice (p ++ q) p.length = .ok p := by
  simp [slice]

/-- A copy keeps to the object. -/
theorem store_eq_ok {p q data : List α} {i : Nat} (run : store p i data = .ok q) :
    i + data.length ≤ p.length ∧ q.length = p.length := by
  unfold store at run
  split at run
  case isTrue inside =>
    cases run
    refine ⟨inside, ?_⟩
    simp only [List.length_append, List.length_take, List.length_drop]
    omega
  case isFalse => cases run

/-- A copy behind what is kept, into a rest that has room for it. -/
theorem store_append (before : List α) {rest data : List α} (room : data.length ≤ rest.length) :
    store (before ++ rest) before.length data = .ok (before ++ (data ++ rest.drop data.length)) := by
  have inside : before.length + data.length ≤ (before ++ rest).length := by
    rw [List.length_append]
    exact Nat.add_le_add_left room _
  rw [store, if_pos inside, List.take_left, List.drop_length_add_append, List.append_assoc]

/-- A loop whose check no round fails. -/
theorem ofFnM_require {p : Fin n → Prop} [DecidablePred p] {f : Fin n → α} (inside : ∀ i, p i) :
    Vector.ofFnM (fun i => (do require (p i) fault; .ok (f i) : Run α)) = .ok (.ofFn f) := by
  simp only [require_true (inside _), ok_bind]
  exact Vector.ofFnM_pure

/-- A loop some round of which fails its check. -/
theorem ofFnM_require_error {p : Fin n → Prop} [DecidablePred p] {f : Fin n → α} (outside : ∃ i, ¬ p i) :
    Vector.ofFnM (fun i => (do require (p i) fault; .ok (f i) : Run α)) = .error fault := by
  induction n with
  | zero => exact outside.elim fun i => i.elim0
  | succ n ih =>
    rw [Vector.ofFnM_succ]
    by_cases earlier : ∃ i : Fin n, ¬ p i.castSucc
    · rw [ih earlier]
      rfl
    · have passed : ∀ i : Fin n, p i.castSucc := fun i => of_not_not fun fails => earlier ⟨i, fails⟩
      have last : ¬ p (.last n) := by
        obtain ⟨i, fails⟩ := outside
        cases i using Fin.lastCases with
        | last => exact fails
        | cast i => exact absurd (passed i) fails
      rw [ofFnM_require passed, require_false last]
      rfl

end CExec
