import Mumble.VarintProofs
import Mumble.Lib.PrefixCode

/-! What `varint_encode` does to a buffer, and its encodings as a prefix code. -/
namespace Mumble
open CExec PrefixCode

/-- The value at the front of a text of encodings, without the casts by which
`varint_decode` loses a sign. -/
def varintRead : List UInt8 → UInt64
  | [] => 0
  | b0 :: rest =>
    let byte (i : Nat) : Nat := (rest[i]?.getD 0).toNat
    .ofNat <|
      if b0.toNat < 0x80 then b0.toNat
      else if b0.toNat < 0xC0 then (b0.toNat - 0x80) * 2 ^ 8 + byte 0
      else if b0.toNat < 0xE0 then (b0.toNat - 0xC0) * 2 ^ 16 + byte 0 * 2 ^ 8 + byte 1
      else if b0.toNat < 0xF0 then
        (b0.toNat - 0xE0) * 2 ^ 24 + byte 0 * 2 ^ 16 + byte 1 * 2 ^ 8 + byte 2
      else if b0.toNat < 0xF4 then byte 0 * 2 ^ 24 + byte 1 * 2 ^ 16 + byte 2 * 2 ^ 8 + byte 3
      else
        byte 0 * 2 ^ 56 + byte 1 * 2 ^ 48 + byte 2 * 2 ^ 40 + byte 3 * 2 ^ 32 +
          byte 4 * 2 ^ 24 + byte 5 * 2 ^ 16 + byte 6 * 2 ^ 8 + byte 7

theorem varintRead_bytes (source : UInt64) (rest : List UInt8) :
    varintRead (varintBytes source ++ rest) = source := by
  have bound := source.toNat_lt
  have byte (n : Nat) : (UInt8.ofNat n).toNat = n % 256 := UInt8.toNat_ofNat'
  have same {n : Nat} (value : n = source.toNat) : UInt64.ofNat n = source := by
    rw [value, UInt64.ofNat_toNat]
  have tags : (0xF0 : UInt8).toNat = 0xF0 ∧ (0xF4 : UInt8).toNat = 0xF4 := ⟨rfl, rfl⟩
  refine varintBytes_forms (P := fun e => varintRead (e ++ rest) = source) source
    ?one ?two ?three ?four ?five ?nine
  case one =>
    intro high
    simp only [List.cons_append, varintRead, byte]
    refine same ?_
    rw [if_pos] <;> omega
  case two =>
    intro low high
    simp only [List.cons_append, varintRead, byte, List.getElem?_cons_zero, Option.getD_some]
    refine same ?_
    rw [if_neg, if_pos] <;> omega
  case three =>
    intro low high
    simp only [List.cons_append, varintRead, byte, List.getElem?_cons_zero, List.getElem?_cons_succ,
      Option.getD_some]
    refine same ?_
    rw [if_neg, if_neg, if_pos] <;> omega
  case four =>
    intro low high
    simp only [List.cons_append, varintRead, byte, List.getElem?_cons_zero, List.getElem?_cons_succ,
      Option.getD_some]
    refine same ?_
    rw [if_neg, if_neg, if_neg, if_pos] <;> omega
  case five =>
    intro low high
    simp only [List.cons_append, varintRead, byte, List.getElem?_cons_zero, List.getElem?_cons_succ,
      Option.getD_some, tags]
    refine same ?_
    rw [if_neg, if_neg, if_neg, if_neg, if_pos] <;> omega
  case nine =>
    intro low
    simp only [List.cons_append, varintRead, byte, List.getElem?_cons_zero, List.getElem?_cons_succ,
      Option.getD_some, tags]
    refine same ?_
    rw [if_neg, if_neg, if_neg, if_neg, if_neg] <;> omega

theorem varintBytes_prefixFree : PrefixFree varintBytes :=
  prefixFree_of_read varintRead varintRead_bytes

theorem varintBytes_ne_nil (source : UInt64) : varintBytes source ≠ [] :=
  varintBytes_forms (P := fun bytes => bytes ≠ []) source (fun _ => List.cons_ne_nil _ _)
    (fun _ _ => List.cons_ne_nil _ _) (fun _ _ => List.cons_ne_nil _ _)
    (fun _ _ => List.cons_ne_nil _ _) (fun _ _ => List.cons_ne_nil _ _)
    fun _ => List.cons_ne_nil _ _

/-- Without room nothing changes, and with room the encoding of the size foretold
is all that is written. No other encoding goes on from it, and so a row of
encodings is read in one way. -/
theorem varint_encode_exact (source : UInt64) (buf : List UInt8) (size written : Int)
    (space : size ≤ buf.length) :
    ((size < varintEncodeSize source → varintEncode source buf size written = .ok (1, buf, written)) ∧
      (varintEncodeSize source ≤ size → varintEncode source buf size written =
        .ok (0, varintBytes source ++ buf.drop (varintBytes source).length, varintEncodeSize source)) ∧
      ((varintBytes source).length : Int) = varintEncodeSize source) ∧
    (∀ other, source ≠ other → ¬ varintBytes source <+: varintBytes other) ∧
    ∀ sources others : List UInt64,
      sources.flatMap varintBytes = others.flatMap varintBytes → sources = others := by
  have length := varintBytes_length source
  refine ⟨⟨fun short => ?_, fun room => ?_, length⟩, fun other different goesOn => ?_, ?_⟩
  · rw [varintEncode, if_pos short]
  · rw [varintEncode_eq source buf size written room (by omega), length]
  · exact different (varintBytes_prefixFree source other goesOn)
  · intro sources others same
    exact varintBytes_prefixFree.flatMap_injective varintBytes_ne_nil same

theorem varint_encode_exact_sample :
    varintEncode 300 [1, 2, 3, 4] 4 9 = .ok (0, [0x81, 0x2C, 3, 4], 2) ∧
      ¬ varintBytes 300 <+: varintBytes 301 := by
  obtain ⟨⟨-, wide, -⟩, free, -⟩ := varint_encode_exact 300 [1, 2, 3, 4] 4 9 (by decide)
  exact ⟨wide (by decide), free 301 (by decide)⟩

end Mumble
