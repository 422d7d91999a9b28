import Mumble.Ocb3Points

/-! For which inputs `ocb3_aes_encrypt` is the OCB3 mode whatever the block cipher does. -/
namespace Mumble
open CExec Bytes OffsetSchedule

section Agreement
variable {nonce : Nat} {bs as : List Block} {p q q' : List UInt8}

theorem ocb3_agrees (E : Equiv.Perm Block) (bottom : nonce % 64 < 32) (message : bs.length < 2)
    (data : as.length < 3) (p q : List UInt8) : Ocb3Agrees E nonce bs as p q q := by
  have clear : nonce % 32 = nonce % 64 := by omega
  have seals (t : Nat) (before : t < bs.length) : codeSchedule E 1 t = ocb3Schedule E t :=
    messageSchedule_eq E (by omega)
  have hashes (t : Nat) (before : t < as.length) : codeSchedule E 16 t = ocb3Schedule E t :=
    dataSchedule_eq E (by omega)
  rw [Ocb3Agrees, clear, ocb3Seal_congr seals, ocb3Hash_congr hashes]
  exact ⟨rfl, rfl⟩

/-- The first of the four conditions that fails is shown by a permutation for it. -/
theorem ocb3_agrees_iff (low : 2 ^ 96 ≤ nonce) (high : nonce < 2 ^ 97) (room : as.length < 2 ^ 27)
    (size : q'.length = q.length) (short : q'.length < 16) :
    (∀ E, Ocb3Agrees E nonce bs as p q q') ↔
      nonce % 64 < 32 ∧ bs.length < 2 ∧ as.length < 3 ∧ q' = q := by
  constructor
  · intro agrees
    by_contra fails
    have shown : ∃ E, ¬ Ocb3Agrees E nonce bs as p q q' := by
      by_cases bottom : nonce % 64 < 32
      · have clear : nonce % 64 = nonce % 32 := by omega
        by_cases message : bs.length < 2
        · by_cases rest : q' = q
          · subst rest
            have data : 3 ≤ as.length := by
              by_contra few
              exact fails ⟨bottom, message, Nat.lt_of_not_le few, rfl⟩
            exact data_shows clear (Nat.le_of_lt_succ message) p q' data room
          · exact rest_shows clear bs as p size short rest
        · exact second_shows clear (Nat.le_of_not_lt message) as p q q'
      · exact bottom_shows low high (Nat.le_of_not_lt bottom) bs as p q q'
    obtain ⟨E, shows⟩ := shown
    exact shows (agrees E)
  · rintro ⟨bottom, message, data, rfl⟩ E
    exact ocb3_agrees E bottom message data p q'

end Agreement

variable (ctx : OcbAes) (data message rest rest' : List UInt8)

theorem ocb3_conforms_iff (aes : Aes) (bs as : List Block) {p q : List UInt8} (short : p.length < 16)
    (short' : q.length < 16) :
    ocb3AesEncrypt aes ctx (flat bs ++ p ++ rest) ((flat bs ++ p).length : Nat) (flat as ++ q ++ rest')
        ((flat as ++ q).length : Nat) =
      .ok (0, ocb3Encrypt (aes ctx.key) (ctx.encIv.toList.take 12) (flat as ++ q) (flat bs ++ p)) ↔
    Ocb3Agrees (aes ctx.key) (nonceNumber ctx) bs as p q ((flat as ++ q).take q.length) := by
  rw [ocb3AesEncrypt_eq bs as short short', ocb3Encrypt_split _ _ bs as short short', Except.ok.injEq,
    Prod.mk.injEq, Prod.mk.injEq]
  exact and_iff_right rfl

/-- `ocb3_aes_encrypt` is OCB3 under every block cipher exactly if the bit 5 of the
nonce, which the mask `0x1F` drops, is clear, if there are no two full blocks of the
message and no three of the data, where the highest bit of an index from zero is not
what the offsets go by, and if the rest of the data is what the data start with. -/
theorem ocb3_conformance_iff (room : data.length < 2 ^ 31) :
    (∀ aes : Aes, ocb3AesEncrypt aes ctx (message ++ rest) (message.length : Nat) (data ++ rest')
        (data.length : Nat) =
      .ok (0, ocb3Encrypt (aes ctx.key) (ctx.encIv.toList.take 12) data message)) ↔
    bigEndian (ctx.encIv.toList.take 12) % 64 < 32 ∧ message.length < 32 ∧ data.length < 48 ∧
      data.take (data.length % 16) = data.drop (16 * (data.length / 16)) := by
  obtain ⟨bs, p, rfl, short⟩ := exists_split message
  obtain ⟨as, q, rfl, short'⟩ := exists_split data
  obtain ⟨low, high⟩ := nonceNumber_bounds ctx
  have messageLength := flat_append_length bs p
  have dataLength := flat_append_length as q
  have last : (flat as ++ q).length % 16 = q.length := by omega
  have bottom : bigEndian (ctx.encIv.toList.take 12) % 64 = nonceNumber ctx % 64 := by
    rw [nonceNumber]
    omega
  have size : ((flat as ++ q).take q.length).length = q.length := by
    rw [List.length_take]
    omega
  have ciphers (P : Equiv.Perm Block → Prop) : (∀ aes : Aes, P (aes ctx.key)) ↔ ∀ E, P E :=
    ⟨fun all E => all fun _ => E, fun all aes => all (aes ctx.key)⟩
  simp only [ocb3_conforms_iff ctx rest rest' _ bs as short short']
  rw [ciphers fun E => Ocb3Agrees E (nonceNumber ctx) bs as p q ((flat as ++ q).take q.length),
    ocb3_agrees_iff low high (by omega) size (by omega), bottom, last, (split_unique as short').2]
  constructor
  · rintro ⟨clear, few, few', same⟩
    exact ⟨clear, by omega, by omega, same⟩
  · rintro ⟨clear, few, few', same⟩
    exact ⟨clear, by omega, by omega, same⟩

theorem ocb3_conformance_sample :
    ocb3AesEncrypt identityAes (sampleContext [1]) ([1, 2, 3] ++ [4]) 3 ([5, 6] ++ []) 2 =
      .ok (0, ocb3Encrypt (Equiv.refl Block) ((sampleContext [1]).encIv.toList.take 12) [5, 6] [1, 2, 3]) :=
  (ocb3_conformance_iff (sampleContext [1]) [5, 6] [1, 2, 3] [4] [] (by decide)).mpr
    (by decide) identityAes

/-- The nonce with only its bit 5 set and a block cipher that changes nothing: no data
and no message have another tag than in the mode. -/
theorem ocb3_drops_bottom :
    ocb3AesEncrypt identityAes (sampleContext [0, 0, 0, 0, 0, 0, 0, 0, 0, 0, 0, 0x20]) [] 0 [] 0 ≠
      .ok (0, ocb3Encrypt (Equiv.refl Block) [0, 0, 0, 0, 0, 0, 0, 0, 0, 0, 0, 0x20] [] []) := by
  intro same
  let ctx := sampleContext [0, 0, 0, 0, 0, 0, 0, 0, 0, 0, 0, 0x20]
  have nonce : [0, 0, 0, 0, 0, 0, 0, 0, 0, 0, 0, 0x20] = ctx.encIv.toList.take 12 := by decide
  have number : nonceNumber ctx = 2 ^ 96 + 32 := by decide
  have equal : ocb3AesEncrypt identityAes ctx [] 0 [] 0 =
      .ok (0, ocb3Encrypt (identityAes ctx.key) (ctx.encIv.toList.take 12) [] []) := by
    rw [← nonce]
    exact same
  have agrees := (ocb3_conforms_iff ctx [] [] identityAes [] [] (p := []) (q := []) (Nat.zero_lt_succ 15)
    (Nat.zero_lt_succ 15)).mp equal
  have identity (a b : Block) : Equiv.refl Block (a + b) = Equiv.refl Block a + Equiv.refl Block b := rfl
  have starts := additive_agrees identity agrees
  rw [number] at starts
  exact absurd starts (by decide)

end Mumble
