import Mathlib

/-! Blocks enciphered one after another, each between two additions of an offset
that a fixed map advances, while a checksum collects the plain blocks. The
blocks are a vector space over the field of two elements, so adding an offset
twice removes it. -/
namespace OffsetCodebook

/-- What one block hands to the next. -/
structure State (B : Type*) where
  delta : B
  checksum : B
  deriving DecidableEq

section Steps
variable {B : Type*} [AddCommGroup B] (E : Equiv.Perm B) (advance : B → B)

def sealBlock (m : B) (s : State B) : B × State B :=
  let delta := advance s.delta
  (E (delta + m) + delta, ⟨delta, s.checksum + m⟩)

def openBlock (c : B) (s : State B) : B × State B :=
  let delta := advance s.delta
  let m := E.symm (delta + c) + delta
  (m, ⟨delta, s.checksum + m⟩)

end Steps

/-- A step function over a list of blocks. -/
def run (step : B → State B → B × State B) : List B → State B → List B × State B
  | [], s => ([], s)
  | b :: bs, s =>
    let (out, s) := step b s
    let (outs, s) := run step bs s
    (out :: outs, s)

section Run
variable {B : Type*} {step back : B → State B → B × State B}

@[simp] theorem run_nil (s : State B) : run step [] s = ([], s) := rfl

theorem run_cons (b : B) (bs : List B) (s : State B) :
    run step (b :: bs) s =
      ((step b s).1 :: (run step bs (step b s).2).1, (run step bs (step b s).2).2) := rfl

@[simp] theorem run_length (bs : List B) (s : State B) : (run step bs s).1.length = bs.length := by
  induction bs generalizing s with
  | nil => rfl
  | cons b bs ih => simp only [run_cons, List.length_cons, ih]

theorem run_append (bs cs : List B) (s : State B) :
    run step (bs ++ cs) s =
      ((run step bs s).1 ++ (run step cs (run step bs s).2).1, (run step cs (run step bs s).2).2) := by
  induction bs generalizing s with
  | nil => rfl
  | cons b bs ih => simp only [List.cons_append, run_cons, ih]

/-- Steps that undo each other and leave the same state undo whole runs. -/
theorem run_inverse (undo : ∀ b s, back (step b s).1 s = (b, (step b s).2)) (bs : List B)
    (s : State B) : run back (run step bs s).1 s = (bs, (run step bs s).2) := by
  induction bs generalizing s with
  | nil => rfl
  | cons b bs ih => simp only [run_cons, undo, ih]

end Run

section Mode
variable {B : Type*} [AddCommGroup B] {E : Equiv.Perm B} {advance : B → B}

theorem run_sealBlock_delta (bs : List B) (s : State B) :
    (run (sealBlock E advance) bs s).2.delta = advance^[bs.length] s.delta := by
  induction bs generalizing s with
  | nil => rfl
  | cons b bs ih => simp only [run_cons, ih, sealBlock, List.length_cons, Function.iterate_succ_apply]

variable [Module (ZMod 2) B]

theorem add_twice (a b : B) : a + b + b = a := by
  rw [add_assoc, ZModModule.add_self, add_zero]

theorem add_eq_iff_eq_add {a b c : B} : a + b = c ↔ b = a + c := by
  constructor
  · rintro rfl
    rw [← add_assoc, ZModModule.add_self, zero_add]
  · rintro rfl
    rw [← add_assoc, ZModModule.add_self, zero_add]

theorem openBlock_sealBlock (m : B) (s : State B) :
    openBlock E advance (sealBlock E advance m s).1 s = (m, (sealBlock E advance m s).2) := by
  have plain : E.symm (advance s.delta + (E (advance s.delta + m) + advance s.delta)) +
      advance s.delta = m := by
    rw [add_comm (advance s.delta), add_twice, Equiv.symm_apply_apply, add_comm _ m, add_twice]
  simp only [openBlock, sealBlock, plain]

theorem sealBlock_openBlock (c : B) (s : State B) :
    sealBlock E advance (openBlock E advance c s).1 s = (c, (openBlock E advance c s).2) := by
  have sealed : E (advance s.delta + (E.symm (advance s.delta + c) + advance s.delta)) +
      advance s.delta = c := by
    rw [add_comm (advance s.delta), add_twice, Equiv.apply_symm_apply, add_comm _ c, add_twice]
  simp only [openBlock, sealBlock, sealed]

/-- Sealed blocks open to the plain ones, and both sides reach the same state. -/
theorem open_seal (bs : List B) (s : State B) :
    run (openBlock E advance) (run (sealBlock E advance) bs s).1 s =
      (bs, (run (sealBlock E advance) bs s).2) :=
  run_inverse openBlock_sealBlock bs s

theorem seal_open (cs : List B) (s : State B) :
    run (sealBlock E advance) (run (openBlock E advance) cs s).1 s =
      (cs, (run (openBlock E advance) cs s).2) :=
  run_inverse sealBlock_openBlock cs s

end Mode

end OffsetCodebook
