import Mathlib.Data.Nat.Notation
import Mathlib.Tactic.Cases

/-!
# C strings

What a function that is given a pointer reads from there: the bytes up to the first NUL.

* `cString` — the string, or `none` where the memory ends before a NUL;
* `cString_eq_some_iff` — **the string that is read**: it has no NUL, and one comes after it;
* `cString_append_nul` — what is read of an array that ends with a NUL.
-/

namespace Nessus.Lib

/-- The bytes before the first NUL. -/
def cString : List UInt8 → Option (List UInt8)
  | [] => none
  | b :: rest => if b = 0 then some [] else (cString rest).map (b :: ·)

section CString

variable {memory s : List UInt8} {n : ℕ}

theorem cString_eq_some_iff : cString memory = some s ↔ 0 ∉ s ∧ s ++ [0] <+: memory := by
  induction memory generalizing s with
  | nil => simp [cString]
  | cons b rest ih =>
    rw [cString]
    split
    · next hb =>
      subst hb
      cases s with
      | nil => simp
      | cons c s =>
        refine iff_of_false (by simp) fun ⟨hnul, hpre⟩ => hnul ?_
        rw [List.cons_append, List.cons_prefix_cons] at hpre
        simp [hpre.1]
    · next hb =>
      cases s with
      | nil => simp [List.cons_prefix_cons, Ne.symm hb]
      | cons c s =>
        rw [Option.map_eq_some_iff, List.cons_append, List.cons_prefix_cons]
        constructor
        · rintro ⟨s', hs', heq⟩
          cases heq
          obtain ⟨hnul, hpre⟩ := ih.1 hs'
          exact ⟨by simp [hnul, Ne.symm hb], rfl, hpre⟩
        · rintro ⟨hnul, rfl, hpre⟩
          exact ⟨s, ih.2 ⟨fun h => hnul (List.mem_cons_of_mem _ h), hpre⟩, rfl⟩

theorem cString_eq_take_iff (hn : n ≤ memory.length) :
    cString memory = some (memory.take n) ↔ 0 ∉ memory.take n ∧ memory[n]? = some 0 := by
  rw [cString_eq_some_iff]
  refine and_congr_right fun _ => ?_
  rw [List.prefix_iff_eq_take, List.length_append, List.length_singleton, List.length_take, Nat.min_eq_left hn,
    List.take_add_one, List.append_cancel_left_eq]
  cases memory[n]? <;> simp [eq_comm]

theorem cString_append_nul (s : List UInt8) : cString (s ++ [0]) = some (s.takeWhile (· ≠ 0)) := by
  induction s with
  | nil => rfl
  | cons b s ih =>
    rw [List.cons_append, cString, ih]
    by_cases hb : b = 0
    · simp [hb]
    · simp [hb]

end CString

end Nessus.Lib
