import Mathlib.Data.List.TakeWhile
import Nessus.Lib.CString

/-!
# Environment variables in paths

`expand_enviroment_variables`: the matches of `\$\<(.+?)\>` one after the other, with the text before and after each.

* `search`, `allMatches` — the first match, and what the iterator goes through; `search_first` and `search_none` are what
  a regular expression promises;
* `expandEnviromentVariables` — the loop, and `Environment.expanded`, what it is to return;
* `expanded_cons` — the expanded path, one match at a time;
* `expand_eq_expanded_iff` — **when the path is expanded**: there is no reference in it, or only one.
-/

namespace Nessus.OsContext

open Nessus.Lib

/-! ## The pattern -/

/-- What `.` does not match. -/
def isLineTerminator (c : UInt8) : Bool := c == 10 || c == 13

/-- What is before the first `>`, and after it. -/
def untilClosing : List UInt8 → Option (List UInt8 × List UInt8)
  | [] => none
  | c :: rest =>
    if c = 62 then some ([], rest)
    else if isLineTerminator c then none
    else (untilClosing rest).map fun r => (c :: r.1, r.2)

/-- `(.+?)\>`: the first byte may be a `>`. -/
def lazyName : List UInt8 → Option (List UInt8 × List UInt8)
  | [] => none
  | c :: rest => if isLineTerminator c then none else (untilClosing rest).map fun r => (c :: r.1, r.2)

/-- The pattern at the beginning of a text: `$<`, the name and `>`. -/
def matchHere : List UInt8 → Option (List UInt8 × List UInt8)
  | c :: d :: rest => if c = 36 ∧ d = 60 then lazyName rest else none
  | _ => none

/-- A match: `prefix()`, the group and `suffix()`. -/
structure Match where
  before : List UInt8
  name : List UInt8
  after : List UInt8
  deriving DecidableEq, Repr

def Match.text (m : Match) : List UInt8 := [36, 60] ++ m.name ++ [62]

/-- `std::regex_search`. -/
def search : List UInt8 → Option Match
  | [] => none
  | c :: rest =>
    match matchHere (c :: rest) with
    | some (name, after) => some ⟨[], name, after⟩
    | none => (search rest).map fun m => { m with before := c :: m.before }

/-- The next `n` matches: each begins its search where the last one has ended. -/
def nextMatches : ℕ → List UInt8 → List Match
  | 0, _ => []
  | n + 1, path =>
    match search path with
    | some m => m :: nextMatches n m.after
    | none => []

/-- What a `std::cregex_iterator` goes through. -/
def allMatches (path : List UInt8) : List Match := nextMatches path.length path

/-! ## The function -/

/-- The environment.  Names and values are C strings. -/
structure Environment where
  value : List UInt8 → Option (List UInt8)
  name_nul_free : ∀ name v, value name = some v → 0 ∉ name
  value_nul_free : ∀ name v, value name = some v → 0 ∉ v

/-- What is read of `s.c_str()`. -/
def cStr (s : List UInt8) : List UInt8 := (cString (s ++ [0])).getD []

namespace Environment

variable (env : Environment) (path : List UInt8)

/-- `result.append(variable ? variable.get() : origin.c_str())`. -/
def appended (m : Match) : List UInt8 :=
  match env.value (cStr m.name) with
  | some v => cStr v
  | none => cStr m.text

def expandEnviromentVariables : List UInt8 :=
  let result := (allMatches path).foldl (fun result m => result ++ m.before ++ env.appended m ++ m.after) []
  if result.isEmpty then path else result

/-! ## What it is to return -/

/-- The value of the variable, or the reference as it stands. -/
def replacement (m : Match) : List UInt8 := (env.value m.name).getD m.text

/-- **The expanded path**: each match is replaced, and all other text is there once. -/
def expanded : List UInt8 :=
  ((allMatches path).flatMap fun m => m.before ++ env.replacement m) ++
    ((allMatches path).getLast?.map Match.after).getD path

/-- No reference, or one without a NUL.  It may not be the whole path if the variable is empty. -/
def AtMostOne : Prop :=
  allMatches path = [] ∨
    ∃ m, allMatches path = [m] ∧ 0 ∉ m.name ∧ ¬ (m.before = [] ∧ m.after = [] ∧ env.value m.name = some [])

end Environment

/-! ## The first match -/

/-- What `.+` matches. -/
def IsName (name : List UInt8) : Prop := name ≠ [] ∧ ∀ c ∈ name, isLineTerminator c = false

def withReference (before name after : List UInt8) : List UInt8 := before ++ ([36, 60] ++ name ++ 62 :: after)

/-- **The first match**: no other begins before it, and no shorter one where it begins. -/
structure FirstMatch (path : List UInt8) (m : Match) : Prop where
  eq : path = withReference m.before m.name m.after
  isName : IsName m.name
  leftmost : ∀ b n a, IsName n → path = withReference b n a → m.before.length ≤ b.length
  shortest : ∀ n a, IsName n → path = withReference m.before n a → m.name.length ≤ n.length

section Search

variable {path name rest after : List UInt8} {m : Match}

theorem untilClosing_eq_some (h : untilClosing path = some (name, rest)) :
    path = name ++ 62 :: rest ∧ ∀ c ∈ name, isLineTerminator c = false := by
  induction path generalizing name with
  | nil => cases h
  | cons c path ih =>
    rw [untilClosing] at h
    split at h
    · next hc =>
      cases h
      exact ⟨by rw [hc]; rfl, fun d hd => by cases hd⟩
    · split at h
      · cases h
      · next hline =>
        obtain ⟨⟨name', rest'⟩, hr, heq⟩ := Option.map_eq_some_iff.1 h
        cases heq
        obtain ⟨rfl, hname⟩ := ih hr
        exact ⟨rfl, List.forall_mem_cons.2 ⟨by simpa using hline, hname⟩⟩

theorem untilClosing_append (hname : ∀ c ∈ name, isLineTerminator c = false) (rest : List UInt8) :
    ∃ r, untilClosing (name ++ 62 :: rest) = some r ∧ r.1.length ≤ name.length := by
  induction name with
  | nil => exact ⟨([], rest), rfl, Nat.le_refl 0⟩
  | cons c name ih =>
    obtain ⟨hc, hname⟩ := List.forall_mem_cons.1 hname
    obtain ⟨r, hr, hle⟩ := ih hname
    rw [List.cons_append, untilClosing]
    split
    · exact ⟨_, rfl, Nat.zero_le _⟩
    · refine ⟨(c :: r.1, r.2), ?_, Nat.succ_le_succ hle⟩
      rw [if_neg (by simp [hc]), hr]
      rfl

theorem matchHere_eq_some (h : matchHere path = some (name, after)) :
    path = withReference [] name after ∧ IsName name := by
  rcases path with _ | ⟨c, _ | ⟨d, path⟩⟩
  · cases h
  · cases h
  rw [matchHere, Option.ite_none_right_eq_some] at h
  obtain ⟨⟨rfl, rfl⟩, hlazy⟩ := h
  rcases path with _ | ⟨c, path⟩
  · cases hlazy
  rw [lazyName, Option.ite_none_left_eq_some] at hlazy
  obtain ⟨hline, hmap⟩ := hlazy
  obtain ⟨⟨name', rest'⟩, hr, heq⟩ := Option.map_eq_some_iff.1 hmap
  cases heq
  obtain ⟨rfl, hname⟩ := untilClosing_eq_some hr
  exact ⟨rfl, List.cons_ne_nil _ _, List.forall_mem_cons.2 ⟨by simpa using hline, hname⟩⟩

theorem matchHere_withReference (hname : IsName name) (after : List UInt8) :
    ∃ r, matchHere (withReference [] name after) = some r ∧ r.1.length ≤ name.length := by
  obtain ⟨hne, hline⟩ := hname
  rcases name with _ | ⟨c, name⟩
  · exact absurd rfl hne
  obtain ⟨hc, hline⟩ := List.forall_mem_cons.1 hline
  obtain ⟨r, hr, hle⟩ := untilClosing_append hline after
  refine ⟨(c :: r.1, r.2), ?_, Nat.succ_le_succ hle⟩
  simp only [withReference, List.nil_append, List.cons_append, matchHere, and_self, if_true, lazyName, hc]
  rw [if_neg (by simp), hr]
  rfl

theorem withReference_cons (c : UInt8) (before name after : List UInt8) :
    withReference (c :: before) name after = c :: withReference before name after := rfl

/-- **`search` finds the first match.** -/
theorem search_first (h : search path = some m) : FirstMatch path m := by
  induction path generalizing m with
  | nil => cases h
  | cons c path ih =>
    rw [search] at h
    split at h
    · next name after hhere =>
      cases h
      obtain ⟨heq, hname⟩ := matchHere_eq_some hhere
      refine ⟨heq, hname, fun b n a hn hb => Nat.zero_le _, fun n a hn hb => ?_⟩
      obtain ⟨r, hr, hle⟩ := matchHere_withReference hn a
      rw [hb, hr] at hhere
      cases hhere
      exact hle
    · next hhere =>
      obtain ⟨m', hm', heq⟩ := Option.map_eq_some_iff.1 h
      cases heq
      have hfirst := ih hm'
      refine ⟨?_, hfirst.isName, ?_, ?_⟩
      · rw [withReference_cons, ← hfirst.eq]
      · rintro (_ | ⟨d, b⟩) n a hn hb
        · obtain ⟨r, hr, -⟩ := matchHere_withReference hn a
          rw [hb, hr] at hhere
          cases hhere
        · cases hb
          exact Nat.succ_le_succ (hfirst.leftmost b n a hn rfl)
      · intro n a hn hb
        exact hfirst.shortest n a hn (List.cons.inj hb).2

/-- **And one if there is one.** -/
theorem search_none (h : search path = none) (before name after : List UInt8) (hname : IsName name) :
    path ≠ withReference before name after := by
  induction path generalizing before with
  | nil => cases before <;> exact fun heq => nomatch heq
  | cons c path ih =>
    rw [search] at h
    split at h
    · cases h
    · next hhere =>
      rcases before with _ | ⟨d, before⟩
      · intro heq
        obtain ⟨r, hr, -⟩ := matchHere_withReference hname after
        rw [heq, hr] at hhere
        cases hhere
      · intro heq
        exact ih (Option.map_eq_none_iff.1 h) before (List.cons.inj heq).2

theorem length_withReference (before name after : List UInt8) :
    (withReference before name after).length = before.length + (name.length + 3) + after.length := by
  simp only [withReference, List.length_append, List.length_cons, List.length_nil]
  omega

end Search

/-! ## One match at a time -/

section Matches

variable {path : List UInt8} {m : Match}

theorem FirstMatch.length_after_lt (h : FirstMatch path m) : m.after.length < path.length := by
  rw [h.eq, length_withReference]
  omega

theorem nextMatches_eq {n k : ℕ} (hn : path.length ≤ n) (hk : path.length ≤ k) : nextMatches n path = nextMatches k path := by
  induction n generalizing path k with
  | zero =>
    rw [List.eq_nil_of_length_eq_zero (Nat.le_zero.1 hn)]
    cases k <;> rfl
  | succ n ih =>
    cases k with
    | zero =>
      rw [List.eq_nil_of_length_eq_zero (Nat.le_zero.1 hk)]
      rfl
    | succ k =>
      rw [nextMatches, nextMatches]
      cases hsearch : search path with
      | none => rfl
      | some m =>
        have hlt := (search_first hsearch).length_after_lt
        simp only [ih (by omega : m.after.length ≤ n) (by omega : m.after.length ≤ k)]

theorem allMatches_none (h : search path = none) : allMatches path = [] := by
  rw [allMatches]
  cases path with
  | nil => rfl
  | cons c path => rw [List.length_cons, nextMatches, h]

theorem allMatches_some (h : search path = some m) : allMatches path = m :: allMatches m.after := by
  have hlt := (search_first h).length_after_lt
  obtain ⟨k, hk⟩ : ∃ k, path.length = k + 1 := ⟨path.length - 1, by omega⟩
  rw [allMatches, hk, nextMatches, h]
  simp only [nextMatches_eq (by omega : m.after.length ≤ k) (Nat.le_refl _), allMatches]

theorem search_of_allMatches_cons {ms : List Match} (h : allMatches path = m :: ms) :
    search path = some m ∧ allMatches m.after = ms := by
  cases hsearch : search path with
  | none =>
    rw [allMatches_none hsearch] at h
    cases h
  | some m' =>
    rw [allMatches_some hsearch] at h
    cases h
    exact ⟨rfl, rfl⟩

theorem mem_of_mem_name (hm : m ∈ allMatches path) {c : UInt8} (hc : c ∈ m.name) : c ∈ path := by
  induction hms : allMatches path generalizing path with
  | nil =>
    rw [hms] at hm
    cases hm
  | cons m' ms ih =>
    obtain ⟨hsearch, hafter⟩ := search_of_allMatches_cons hms
    rw [(search_first hsearch).eq, withReference]
    rw [hms] at hm
    rcases List.mem_cons.1 hm with rfl | hm
    · simp [hc]
    · simp [ih (hafter ▸ hm) hafter]

end Matches

namespace Environment

variable {env : Environment} {path : List UInt8} {m : Match}

/-- **The expanded path**: the text before a reference, what it is replaced with, and the rest expanded. -/
theorem expanded_cons (h : search path = some m) :
    env.expanded path = m.before ++ env.replacement m ++ env.expanded m.after := by
  rw [expanded, expanded, allMatches_some h, List.flatMap_cons, List.append_assoc, List.getLast?_cons]
  cases (allMatches m.after).getLast? <;> rfl

theorem expanded_of_none (h : search path = none) : env.expanded path = path := by
  rw [expanded, allMatches_none h]
  rfl

/-! ## The function -/

theorem cStr_of_not_mem {s : List UInt8} (h : 0 ∉ s) : cStr s = s := by
  have hpos : ∀ c ∈ s, decide (c ≠ 0) = true := by
    intro c hc
    simpa using fun heq : c = 0 => h (heq ▸ hc)
  rw [cStr, cString_append_nul, Option.getD_some, List.takeWhile_eq_self_iff.2 hpos]

theorem not_mem_text (h : 0 ∉ m.name) : 0 ∉ m.text := by
  simp only [Match.text, List.mem_append, not_or]
  exact ⟨⟨by decide, h⟩, by decide⟩

/-- Without a NUL in the name, the right text is appended. -/
theorem appended_eq (h : 0 ∉ m.name) : env.appended m = env.replacement m := by
  rw [appended, replacement, cStr_of_not_mem h]
  cases hv : env.value m.name with
  | none => exact cStr_of_not_mem (not_mem_text h)
  | some v => exact cStr_of_not_mem (env.value_nul_free m.name v hv)

theorem expandEnviromentVariables_eq :
    env.expandEnviromentVariables path =
      if ((allMatches path).flatMap fun m => m.before ++ env.appended m ++ m.after).isEmpty then path
      else (allMatches path).flatMap fun m => m.before ++ env.appended m ++ m.after := by
  have hfold (ms : List Match) (result : List UInt8) :
      ms.foldl (fun result m => result ++ m.before ++ env.appended m ++ m.after) result =
        result ++ ms.flatMap fun m => m.before ++ env.appended m ++ m.after := by
    induction ms generalizing result with
    | nil => simp
    | cons m ms ih =>
      rw [List.foldl_cons, ih, List.flatMap_cons]
      simp only [List.append_assoc]
  rw [expandEnviromentVariables, hfold]
  rfl

theorem replacement_eq_nil (h : env.replacement m = []) : env.value m.name = some [] := by
  rw [replacement] at h
  cases hv : env.value m.name with
  | none =>
    rw [hv] at h
    cases h
  | some v =>
    rw [hv] at h
    exact congrArg some h

theorem expand_of_atMostOne (h : env.AtMostOne path) : env.expandEnviromentVariables path = env.expanded path := by
  rw [expandEnviromentVariables_eq, expanded]
  rcases h with hnil | ⟨m, hm, hnul, hempty⟩
  · rw [hnil]
    rfl
  · have hne : m.before ++ env.replacement m ++ m.after ≠ [] := by
      intro hnil
      simp only [List.append_eq_nil_iff] at hnil
      exact hempty ⟨hnil.1.1, hnil.2, replacement_eq_nil hnil.1.2⟩
    rw [hm, List.flatMap_singleton, List.flatMap_singleton, appended_eq hnul, if_neg (by simpa using hne)]
    rfl

/-! ## More than one reference -/

/-- Every round appends the rest of the path, so the text after a match is in the result once more for each that
follows. -/
theorem length_le_of_cons (env : Environment) {ms : List Match} (h : allMatches path = m :: ms) (hnul : 0 ∉ path) :
    (env.expanded path).length ≤
        ((m :: ms).flatMap fun m => m.before ++ env.appended m ++ m.after).length ∧
      (ms ≠ [] → (env.expanded path).length <
        ((m :: ms).flatMap fun m => m.before ++ env.appended m ++ m.after).length) := by
  induction ms generalizing path m with
  | nil =>
    obtain ⟨hsearch, hafter⟩ := search_of_allMatches_cons h
    have hrest : env.expanded m.after = m.after := by
      rw [expanded, hafter]
      rfl
    have hname : 0 ∉ m.name := fun hm => hnul (mem_of_mem_name (by rw [h]; exact List.mem_cons_self) hm)
    rw [expanded_cons hsearch, hrest, ← appended_eq hname]
    simp
  | cons m' ms ih =>
    obtain ⟨hsearch, hafter⟩ := search_of_allMatches_cons h
    have hname : 0 ∉ m.name := fun hm => hnul (mem_of_mem_name (by rw [h]; exact List.mem_cons_self) hm)
    have hnul' : 0 ∉ m.after := by
      intro hm
      rw [(search_first hsearch).eq, withReference] at hnul
      exact hnul (by simp [hm])
    have hpos : 0 < m.after.length := Nat.lt_of_le_of_lt (Nat.zero_le _)
      (search_first (search_of_allMatches_cons hafter).1).length_after_lt
    have hrest := (ih hafter hnul').1
    rw [expanded_cons hsearch, ← appended_eq hname, List.flatMap_cons]
    simp only [List.length_append] at hrest ⊢
    omega

/-- Without a NUL in the path, more than one reference is too many. -/
theorem atMostOne_of_expand (hnul : 0 ∉ path) (h : env.expandEnviromentVariables path = env.expanded path) :
    env.AtMostOne path := by
  cases hms : allMatches path with
  | nil => exact .inl hms
  | cons m ms =>
    obtain ⟨hsearch, hafter⟩ := search_of_allMatches_cons hms
    have hname : 0 ∉ m.name := fun hm => hnul (mem_of_mem_name (by rw [hms]; exact List.mem_cons_self) hm)
    have hlength := length_le_of_cons env hms hnul
    rw [expandEnviromentVariables_eq, hms] at h
    cases ms with
    | nil =>
      refine .inr ⟨m, hms, hname, ?_⟩
      rintro ⟨hbefore, hafter', hvalue⟩
      -- the result is empty, and the path itself is returned
      have hnil : env.expanded path = [] := by
        have hrest : env.expanded [] = [] := expanded_of_none rfl
        rw [expanded_cons hsearch, hbefore, hafter', hrest, replacement, hvalue]
        rfl
      have happended : env.appended m = [] := by
        rw [appended_eq hname, replacement, hvalue]
        rfl
      have hpath : path = [] := by
        rw [hnil] at h
        simpa [hbefore, hafter', happended] using h
      rw [hpath] at hsearch
      cases hsearch
    | cons m' ms =>
      have hlt := hlength.2 (List.cons_ne_nil m' ms)
      rw [if_neg] at h
      · rw [h] at hlt
        exact absurd hlt (Nat.lt_irrefl _)
      · intro hempty
        rw [List.isEmpty_iff.1 hempty] at hlt
        cases hlt

/-- **When the path is expanded**: if there is no reference in it, or only one, that has no NUL and is not the whole path
with an empty value; and without a NUL in the path, only then. -/
theorem expand_eq_expanded_iff (env : Environment) :
    (∀ path, env.AtMostOne path → env.expandEnviromentVariables path = env.expanded path) ∧
      ∀ path, 0 ∉ path → (env.expandEnviromentVariables path = env.expanded path ↔ env.AtMostOne path) :=
  ⟨fun _ h => expand_of_atMostOne h, fun _ hnul => ⟨atMostOne_of_expand hnul, expand_of_atMostOne⟩⟩

def single (name value : List UInt8) (hname : 0 ∉ name) (hvalue : 0 ∉ value) : Environment where
  value n := if n = name then some value else none
  name_nul_free := by
    intro n v h
    rw [Option.ite_none_right_eq_some] at h
    exact h.1 ▸ hname
  value_nul_free := by
    intro n v h
    rw [Option.ite_none_right_eq_some] at h
    cases h.2
    exact hvalue

/-- `A` is `x`. -/
def aIsX : Environment := single [65] [120] (by decide) (by decide)

/-- `$<A>/b`. -/
theorem expand_eq_expanded_iff_run :
    aIsX.expandEnviromentVariables [36, 60, 65, 62, 47, 98] = aIsX.expanded [36, 60, 65, 62, 47, 98] :=
  ((expand_eq_expanded_iff aIsX).2 _ (by decide)).2 (.inr ⟨⟨[], [65], [47, 98]⟩, by decide, by decide, by decide⟩)

/-- `$<A>$<A>` is expanded to `xx`, but the function returns `x$<A>x`; and `$<A>` with an empty value is returned as it
stands. -/
theorem not_expand_eq_expanded :
    aIsX.expandEnviromentVariables [36, 60, 65, 62, 36, 60, 65, 62] = [120, 36, 60, 65, 62, 120] ∧
      aIsX.expandEnviromentVariables [36, 60, 65, 62, 36, 60, 65, 62] ≠
        aIsX.expanded [36, 60, 65, 62, 36, 60, 65, 62] ∧
      (single [65] [] (by decide) (by decide)).expandEnviromentVariables [36, 60, 65, 62] ≠
        (single [65] [] (by decide) (by decide)).expanded [36, 60, 65, 62] := by
  decide

end Environment

end Nessus.OsContext
