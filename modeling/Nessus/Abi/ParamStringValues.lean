import Nessus.Abi.ParamString

/-!
# Strings as values

* `Moves` — what an operation that creates no buffer has to show: the counting invariant, that the buffers which are
  left are as they were, and the handles of the variables afterwards;
* `State.clear_moves`, `State.constructRef_moves` — the two ways in which the operations change counts;
* `exec_spec` — one operation, which follows the values exactly where it does not assign a variable to itself;
* `program_values_iff` — every program.
-/

namespace Nessus.Abi.ParamString

open Nessus.Lib

variable {μ : Type} {A : Allocations μ} {s s' : State μ} {v w : ℕ}

/-! ## Handles -/

@[simp] theorem holds_none (p : ℕ) : holds p none = false := rfl
@[simp] theorem holds_null (p : ℕ) : holds p (some none) = false := rfl
@[simp] theorem holds_some (p q : ℕ) : holds p (some (some q)) = (q == p) := rfl

namespace State

theorem handle?_eq_some {h : Handle} : s.handle? v = some h ↔ s.vars[v]? = some (some h) := by
  simp [handle?, Option.join_eq_some_iff]

theorem free_iff : s.free v = true ↔ s.vars[v]? = some none := by
  simp [free]

/-- Rewriting one slot changes the references by what was in it and what is. -/
theorem refs_put {x : Option Handle} (h : s.vars[v]? = some x) (y : Option Handle) (p : ℕ) :
    (s.put v y).refs p + (if holds p x then 1 else 0) = s.refs p + (if holds p y then 1 else 0) := by
  have := countP_set (p := holds p) h y
  simp only [refs, put]
  omega

theorem count_take {raw : Handle} (h : s.owns raw = true) (p : ℕ) :
    (s.take raw).raw.count p + raw.toList.count p = s.raw.count p := by
  cases raw with
  | none => rfl
  | some q =>
    have hmem : q ∈ s.raw := by simpa [owns] using h
    have := (List.perm_cons_erase hmem).count_eq p
    simp only [take, Option.elim, Option.toList, List.count_cons, List.count_nil] at this ⊢
    omega

theorem refs_pos_of_handle? {p : ℕ} (h : s.handle? v = some (some p)) : 0 < s.refs p :=
  Nat.add_pos_left (countP_pos_of_getElem? (handle?_eq_some.1 h) (by simp)) _

theorem refs_pos_of_borrow {source : Borrowed} {p : ℕ} (h : s.borrow source = some (some p)) : 0 < s.refs p := by
  cases source with
  | null => cases h
  | handle w => exact refs_pos_of_handle? h
  | detached q =>
    simp only [borrow] at h
    split at h
    · next hmem =>
      cases h
      exact Nat.add_pos_right _ (List.count_pos_iff.2 hmem)
    · cases h

end State

/-! ## What the variables read as -/

section Reads

variable {f g : ℕ → String} {vars : List (Option Handle)} {x : Option Handle}

theorem readsIn_congr (h : ∀ i p : ℕ, vars[i]? = some (some (some p)) → f p = g p) : readsIn f vars = readsIn g vars := by
  funext i
  rcases hi : vars[i]? with _ | _ | _ | p
  · simp [readsIn, hi]
  · simp [readsIn, hi]
  · simp [readsIn, hi]
  · simp [readsIn, hi, h i p hi]

theorem readsIn_set (hv : vars[v]? = some x) (y : Option Handle) :
    readsIn f (vars.set v y) = Function.update (readsIn f vars) v (y.map fun handle => handle.map f) := by
  obtain ⟨hlt, -⟩ := List.getElem?_eq_some_iff.1 hv
  funext i
  by_cases hi : i = v
  · subst hi
    simp [readsIn, hlt]
  · rw [Function.update_of_ne hi, readsIn, readsIn, List.getElem?_set_ne (Ne.symm hi)]

end Reads

theorem reads_of_handle? {h : Handle} (hv : s.handle? v = some h) : s.reads A v = some (h.map (A.text s.memory)) := by
  have hv' : s.vars[v]?.join = some h := hv
  simp [State.reads, readsIn, hv']

/-! ## What an operation has to show -/

/-- The operation creates no buffer: the counting invariant holds afterwards, the buffers that are left are as they
were, and the variables have these handles. -/
structure Moves (A : Allocations μ) (s s' : State μ) (vars : List (Option Handle)) : Prop where
  counted : Counted A s'
  within : ∀ p, 0 < A.refCount s'.memory p → 0 < A.refCount s.memory p ∧ A.text s'.memory p = A.text s.memory p
  vars : s'.vars = vars

namespace Moves

variable {s₁ s₂ : State μ} {vars vars₁ vars₂ : List (Option Handle)}

theorem trans (h₁ : Moves A s s₁ vars₁) (h₂ : Moves A s₁ s₂ vars₂) : Moves A s s₂ vars₂ where
  counted := h₂.counted
  within p hp := by
    obtain ⟨hp₁, ht₁⟩ := h₂.within p hp
    obtain ⟨hp₀, ht₀⟩ := h₁.within p hp₁
    exact ⟨hp₀, ht₁.trans ht₀⟩
  vars := h₂.vars

theorem keeps (h : Moves A s s' vars) : A.Keeps s.memory s'.memory := fun p _ hp => (h.within p hp).2

theorem reads (h : Moves A s s' vars) : s'.reads A = readsIn (A.text s.memory) vars := by
  rw [← h.vars]
  refine readsIn_congr fun i p hi => (h.within p ?_).2
  rw [h.counted.refs]
  exact State.refs_pos_of_handle? (State.handle?_eq_some.2 hi)

theorem of_refs (h : Counted A s) (raw : List ℕ) (hr : ∀ p, vars.countP (holds p) + raw.count p = s.refs p) :
    Moves A s { s with vars, raw } vars where
  counted := by
    have hrefs (p : ℕ) : ({ s with vars, raw } : State μ).refs p = s.refs p := hr p
    exact ⟨fun p => (h.refs p).trans (hrefs p).symm, fun p => by rw [hrefs]; exact h.freed p⟩
  within p hp := ⟨hp, rfl⟩
  vars := rfl

end Moves

/-! ## The two ways in which counts change -/

theorem State.clear_of_some {q : ℕ} (hv : s.handle? v = some (some q)) (hpos : 0 < A.refCount s.memory q) :
    s.clear A v = .ok { s.put v (some none) with
      memory := A.freeParamString s.memory q
      freed := if A.refCount (A.freeParamString s.memory q) q = 0 then s.freed ++ [q] else s.freed } := by
  simp only [clear, hv, if_neg (Nat.pos_iff_ne_zero.1 hpos)]

/-- A variable gives up its reference, and the buffer is freed if that was the last one. -/
theorem Counted.clear (hA : A.Lawful) (h : Counted A s) {q : ℕ} (hv : s.handle? v = some (some q)) :
    Counted A { s.put v (some none) with
      memory := A.freeParamString s.memory q
      freed := if A.refCount (A.freeParamString s.memory q) q = 0 then s.freed ++ [q] else s.freed } := by
  have hpos : 0 < A.refCount s.memory q := h.refs q ▸ State.refs_pos_of_handle? hv
  have hcount := (hA.free s.memory q hpos).2
  have hput (p : ℕ) : (s.put v (some none)).refs p + (if q = p then 1 else 0) = s.refs p := by
    simpa using State.refs_put (State.handle?_eq_some.1 hv) (some none) p
  have hrefs (p : ℕ) : A.refCount (A.freeParamString s.memory q) p = (s.put v (some none)).refs p := by
    have hp := h.refs p
    have := hcount p
    have := hput p
    omega
  refine ⟨hrefs, fun p => ?_⟩
  show s.created.count p = List.count p (ite _ _ _) + if 0 < (s.put v (some none)).refs p then 1 else 0
  have hold := h.freed p
  have hp := hput p
  rw [hrefs q]
  by_cases hqp : q = p
  · subst hqp
    rw [if_pos rfl] at hp
    rw [if_pos (by omega)] at hold
    by_cases hlast : (s.put v (some none)).refs q = 0
    · rw [if_pos hlast, if_neg (by omega), List.count_append, List.count_singleton_self]
      exact hold
    · rw [if_neg hlast, if_pos (by omega)]
      exact hold
  · rw [if_neg hqp, Nat.add_zero] at hp
    have hsame : List.count p [q] = 0 := List.count_eq_zero.2 fun hm => hqp (List.mem_singleton.1 hm).symm
    have hlist : List.count p (if (s.put v (some none)).refs q = 0 then s.freed ++ [q] else s.freed) =
        s.freed.count p := by
      split
      · rw [List.count_append, hsame, Nat.add_zero]
      · rfl
    rw [hp, hold, hlist]

theorem State.clear_moves (hA : A.Lawful) (h : Counted A s) {old : Handle} (hv : s.handle? v = some old) :
    ∃ s', s.clear A v = .ok s' ∧ Moves A s s' (s.vars.set v (some none)) ∧ s'.raw = s.raw := by
  cases old with
  | none =>
    refine ⟨s, by simp only [clear, hv], ?_, rfl⟩
    obtain ⟨hlt, he⟩ := List.getElem?_eq_some_iff.1 (State.handle?_eq_some.1 hv)
    rw [← he, List.set_getElem_self]
    exact Moves.of_refs h s.raw fun p => rfl
  | some q =>
    have hpos : 0 < A.refCount s.memory q := h.refs q ▸ State.refs_pos_of_handle? hv
    obtain ⟨hkeeps, hcount⟩ := hA.free s.memory q hpos
    refine ⟨_, clear_of_some hv hpos, ⟨h.clear hA hv, fun p hp => ?_, rfl⟩, rfl⟩
    have hlive : 0 < A.refCount s.memory p := hcount p ▸ Nat.add_pos_left hp _
    exact ⟨hlive, hkeeps p hlive hp⟩

/-- A variable that holds no reference gets one more reference to a buffer that has one. -/
theorem State.constructRef_moves (hA : A.Lawful) (h : Counted A s) {x : Option Handle} (hv : s.vars[v]? = some x)
    (hx : x.join = none) {handle : Handle} (hheld : ∀ p, handle = some p → 0 < s.refs p) :
    ∃ s', s.constructRef A v handle = .ok s' ∧ Moves A s s' (s.vars.set v (some handle)) := by
  have hnot (p : ℕ) : holds p x = false := by
    rw [holds, hx]
    rfl
  cases handle with
  | none =>
    have hput (p : ℕ) : (s.put v (some none)).refs p = s.refs p := by
      have := refs_put hv (some none) p
      rwa [hnot, holds_null] at this
    refine ⟨s.put v (some none), ?_, Moves.of_refs h s.raw hput⟩
    simp only [constructRef, createRef, Option.any_none, Bool.false_eq_true, if_false, hA.ref_null, Outcome.ok_bind]
  | some q =>
    have hpos : 0 < A.refCount s.memory q := h.refs q ▸ hheld q rfl
    obtain ⟨hsnd, hkeeps, hcount⟩ := hA.ref s.memory q hpos
    have hput (p : ℕ) : (s.put v (some (some q))).refs p = s.refs p + if q = p then 1 else 0 := by
      have := refs_put hv (some (some q)) p
      rw [hnot] at this
      simpa using this
    refine ⟨{ s.put v (some (some q)) with memory := (A.createParamStringRef s.memory (some q)).1 }, ?_, ⟨?_, ?_⟩, ?_, rfl⟩
    · have hany : ¬ ((some q).any (A.refCount s.memory · == 0)) = true := by
        simpa using Nat.pos_iff_ne_zero.1 hpos
      rw [constructRef, createRef, if_neg hany]
      simp only [Outcome.ok_bind, hsnd]
      rfl
    · intro p
      show _ = (s.put v (some (some q))).refs p
      rw [hput, hcount, h.refs]
    · intro p
      show s.created.count p = s.freed.count p + if 0 < (s.put v (some (some q))).refs p then 1 else 0
      have hiff : 0 < (s.put v (some (some q))).refs p ↔ 0 < s.refs p := by
        rw [hput]
        split
        · next hqp => exact ⟨fun _ => hqp ▸ hheld q rfl, fun _ => Nat.succ_pos _⟩
        · rfl
      rw [h.freed p]
      simp only [hiff]
    · intro p hp
      have hlive : 0 < A.refCount s.memory p := by
        rw [hcount] at hp
        split at hp
        · next hqp => exact hqp ▸ hpos
        · exact hp
      exact ⟨hlive, hkeeps p hlive hp⟩

theorem State.createString_spec (hA : A.Lawful) (h : Counted A s) (hv : s.vars[v]? = some none) (text : String) :
    Counted A ((s.createString A text).1.put v (some (s.createString A text).2)) ∧
      A.Keeps s.memory (s.createString A text).1.memory ∧
      ((s.createString A text).1.put v (some (s.createString A text).2)).reads A =
        Function.update (s.reads A) v (some ((A.createParamString s.memory text).2.map fun _ => text)) := by
  obtain ⟨hkeeps, hnew⟩ := hA.create s.memory text
  rcases hr : A.createParamString s.memory text with ⟨m, handle⟩
  rw [hr] at hkeeps hnew
  simp only [createString, hr]
  have hmono (p : ℕ) : A.refCount s.memory p ≤ A.refCount m p := by
    cases handle with
    | none => exact Nat.le_of_eq (hnew p).symm
    | some q => exact Nat.le.intro (hnew.2.2 p).symm
  have hold : readsIn (A.text m) s.vars = s.reads A := by
    refine readsIn_congr fun i p hi => ?_
    have hlive : 0 < A.refCount s.memory p := h.refs p ▸ refs_pos_of_handle? (handle?_eq_some.2 hi)
    exact hkeeps p hlive (Nat.lt_of_lt_of_le hlive (hmono p))
  have hput (p : ℕ) : (s.put v (some handle)).refs p = s.refs p + if holds p (some handle) = true then 1 else 0 := by
    have := refs_put hv (some handle) p
    rwa [holds_none] at this
  refine ⟨⟨fun p => ?_, fun p => ?_⟩, hkeeps, ?_⟩
  · show A.refCount m p = (s.put v (some handle)).refs p
    rw [hput, ← h.refs]
    cases handle with
    | none => exact hnew p
    | some q => simpa using hnew.2.2 p
  · show (s.created ++ handle.toList).count p = s.freed.count p + if 0 < (s.put v (some handle)).refs p then 1 else 0
    have hf := h.freed p
    rw [hput, List.count_append, hf]
    cases handle with
    | none => rfl
    | some q =>
      by_cases hqp : q = p
      · subst hqp
        have hzero : s.refs q = 0 := (h.refs q).symm.trans hnew.1
        simp [hzero]
      · simp [hqp]
  · show readsIn (A.text m) (s.vars.set v (some handle)) = _
    rw [readsIn_set hv, hold]
    cases handle with
    | none => rfl
    | some q => rw [Option.map_some, Option.map_some, hnew.2.1, Option.map_some]

/-! ## One operation -/

def Spec (A : Allocations μ) (s : State μ) (op : Op) (r : Outcome Empty (State μ)) : Prop :=
  ∃ s', r = .ok s' ∧ Counted A s' ∧ A.Keeps s.memory s'.memory ∧ (s'.reads A = expected A s op ↔ ¬ SelfAssigns s op)

theorem Moves.spec {op : Op} {vars : List (Option Handle)} (h : Moves A s s' vars)
    (hr : readsIn (A.text s.memory) vars = expected A s op) (hno : ¬ SelfAssigns s op) : Spec A s op (.ok s') :=
  ⟨s', rfl, h.counted, h.keeps, iff_of_true (h.reads.trans hr) hno⟩

theorem holds_toList (handle : Handle) (p : ℕ) :
    (if holds p (some handle) = true then 1 else 0) = handle.toList.count p := by
  cases handle with
  | none => rfl
  | some q => simp [List.count_singleton]

namespace State

theorem vars_put_self {x : Option Handle} (h : s.vars[v]? = some x) (y : Option Handle) :
    (s.put v y).vars[v]? = some y := by
  obtain ⟨hlt, -⟩ := List.getElem?_eq_some_iff.1 h
  simp [put, hlt]

theorem vars_put_ne (hvw : v ≠ w) (y : Option Handle) : (s.put v y).vars[w]? = s.vars[w]? := by
  simp [put, hvw]

/-- A handle goes from one variable to another one, which holds no reference. -/
theorem refs_move {h : Handle} {x : Option Handle} (hw : s.vars[w]? = some (some h)) (hv : s.vars[v]? = some x)
    (hx : x.join = none) (hvw : v ≠ w) (p : ℕ) : ((s.put w (some none)).put v (some h)).refs p = s.refs p := by
  have hfrom := refs_put hw (some none) p
  have hto := refs_put ((vars_put_ne (Ne.symm hvw) (some none)).trans hv) (some h) p
  have hnot : holds p x = false := by
    rw [holds, hx]
    rfl
  rw [hnot] at hto
  simp only [holds_null, Bool.false_eq_true, if_false] at hfrom hto
  omega

end State

section Ops

variable {classes : ℕ → StringClass} {h old : Handle} {x : Option Handle}

/-- A slot is rewritten, and the references that are lost there are the ones that are detached. -/
theorem put_moves (hc : Counted A s) (hv : s.vars[v]? = some x) (y : Option Handle) (raw : List ℕ)
    (hr : ∀ p, raw.count p + (if holds p y then 1 else 0) = s.raw.count p + if holds p x then 1 else 0) :
    Moves A s ({ s with raw }.put v y) (s.vars.set v y) := by
  refine Moves.of_refs hc raw fun p => ?_
  have hput := countP_set (p := holds p) hv y
  have hp := hr p
  show (s.vars.set v y).countP (holds p) + raw.count p = s.vars.countP (holds p) + s.raw.count p
  omega

theorem constructRef_spec (hA : A.Lawful) (hc : Counted A s) (hv : s.free v = true)
    (hheld : ∀ p, h = some p → 0 < s.refs p) {op : Op}
    (he : expected A s op = Function.update (s.reads A) v (some (h.map (A.text s.memory)))) (hno : ¬ SelfAssigns s op) :
    Spec A s op (s.constructRef A v h) := by
  have hslot := State.free_iff.1 hv
  obtain ⟨s', hs', hm⟩ := State.constructRef_moves hA hc hslot rfl hheld
  rw [hs']
  exact hm.spec ((readsIn_set hslot _).trans he.symm) hno

/-- A handle goes from one variable to another one, which holds no reference. -/
theorem move_moves (hc : Counted A s) (hw : s.vars[w]? = some (some h)) (hv : s.vars[v]? = some x) (hx : x.join = none)
    (hvw : v ≠ w) :
    Moves A s ((s.put w (some none)).put v (some h)) ((s.vars.set w (some none)).set v (some h)) :=
  Moves.of_refs hc s.raw (State.refs_move hw hv hx hvw)

theorem readsIn_move (hw : s.handle? w = some h) (hv : s.vars[v]? = some x) (hvw : v ≠ w) :
    readsIn (A.text s.memory) ((s.vars.set w (some none)).set v (some h)) =
      Function.update (Function.update (s.reads A) w (some none)) v (some (h.map (A.text s.memory))) := by
  rw [readsIn_set (x := x), readsIn_set (State.handle?_eq_some.1 hw)]
  · rfl
  · rw [List.getElem?_set_ne (Ne.symm hvw), hv]

theorem Moves.handle?_of_ne {s₁ : State μ} (hm : Moves A s s₁ (s.vars.set v x)) (hvw : v ≠ w)
    (hw : s.handle? w = some h) : s₁.handle? w = some h := by
  rw [State.handle?, hm.vars, List.getElem?_set_ne hvw]
  exact hw

theorem clear_then (hA : A.Lawful) (hc : Counted A s) (hv : s.handle? v = some old) :
    ∃ s₁, s.clear A v = .ok s₁ ∧ Moves A s s₁ (s.vars.set v (some none)) ∧ s₁.raw = s.raw ∧
      s₁.vars[v]? = some (some none) ∧ ∀ s₂ y, Moves A s₁ s₂ (s₁.vars.set v y) → Moves A s s₂ (s.vars.set v y) := by
  obtain ⟨s₁, hclear, hm, hraw⟩ := State.clear_moves hA hc hv
  refine ⟨s₁, hclear, hm, hraw, ?_, fun s₂ y h₂ => ?_⟩
  · rw [hm.vars]
    exact State.vars_put_self (State.handle?_eq_some.1 hv) _
  · rw [hm.vars, List.set_set] at h₂
    exact hm.trans h₂

/-- To null a variable leaves what the variables read as exactly where it is null. -/
theorem update_null_iff (hv : s.handle? v = some h) :
    Function.update (s.reads A) v (some none) = Function.update (s.reads A) v (s.reads A v) ↔
      ¬ (v = v ∧ s.handle? v ≠ some none) := by
  rw [reads_of_handle? hv, hv]
  constructor
  · intro heq
    have hat := congrFun heq v
    rw [Function.update_self, Function.update_self, Option.some_inj] at hat
    cases h with
    | none => exact fun hno => hno.2 rfl
    | some p => cases hat
  · intro hno
    cases h with
    | none => rfl
    | some p => exact absurd ⟨rfl, fun heq => by cases heq⟩ hno

/-- Where the two sides are one variable, `clear` has made the right side null before it is read. -/
theorem assignCopy_spec (hA : A.Lawful) (hc : Counted A s) (hv : s.handle? v = some old) (hw : s.handle? w = some h) :
    Spec A s (.assignCopy v w) (s.assignCopy A v w) := by
  obtain ⟨s₁, hclear, hm₁, -, hslot₁, hback⟩ := clear_then hA hc hv
  have hslot := State.handle?_eq_some.1 hv
  rw [State.assignCopy, hclear, Outcome.ok_bind]
  by_cases hvw : v = w
  · subst hvw
    have hheld : ∀ p, (s₁.handle? v).join = some p → 0 < s₁.refs p := by
      rw [State.handle?_eq_some.2 hslot₁]
      exact fun p hp => by cases hp
    obtain ⟨s₂, hs₂, hm₂⟩ := State.constructRef_moves hA hm₁.counted hslot₁ rfl hheld
    rw [State.handle?_eq_some.2 hslot₁] at hm₂
    have hm := hback s₂ _ hm₂
    refine ⟨s₂, hs₂, hm.counted, hm.keeps, ?_⟩
    rw [hm.reads, readsIn_set hslot]
    exact update_null_iff hv
  · have hw₁ := hm₁.handle?_of_ne hvw hw
    rw [hw₁]
    obtain ⟨s₂, hs₂, hm₂⟩ := State.constructRef_moves hA hm₁.counted hslot₁ rfl
      fun p hp => State.refs_pos_of_handle? (hw₁.trans (congrArg some hp))
    rw [Option.join_some, hs₂]
    refine (hback s₂ _ hm₂).spec ?_ fun hself => hvw hself.1
    rw [readsIn_set hslot, expected, reads_of_handle? hw]
    rfl

theorem assignMove_spec (hA : A.Lawful) (hc : Counted A s) (hv : s.handle? v = some old) (hw : s.handle? w = some h) :
    Spec A s (.assignMove v w) (s.assignMove A v w) := by
  obtain ⟨s₁, hclear, hm₁, -, hslot₁, hback⟩ := clear_then hA hc hv
  have hslot := State.handle?_eq_some.1 hv
  rw [State.assignMove, hclear, Outcome.ok_bind]
  by_cases hvw : v = w
  · subst hvw
    have hvars : (s₁.vars.set v (some none)).set v (some none) = s₁.vars := by
      obtain ⟨hlt, he⟩ := List.getElem?_eq_some_iff.1 hslot₁
      rw [List.set_set, ← he, List.set_getElem_self]
    have hsame : (s₁.put v (some none)).put v (some (s₁.handle? v).join) = s₁ := by
      rw [State.handle?_eq_some.2 hslot₁]
      exact congrArg (fun vars => ({ s₁ with vars } : State μ)) hvars
    rw [hsame]
    refine ⟨s₁, rfl, hm₁.counted, hm₁.keeps, ?_⟩
    rw [hm₁.reads, readsIn_set hslot, expected, Function.update_idem]
    exact update_null_iff hv
  · have hw₁ := hm₁.handle?_of_ne hvw hw
    rw [hw₁, Option.join_some]
    have hm₂ := move_moves hm₁.counted (State.handle?_eq_some.1 hw₁) hslot₁ rfl hvw
    have hvars : (s₁.vars.set w (some none)).set v (some h) = (s.vars.set w (some none)).set v (some h) := by
      rw [hm₁.vars, List.set_comm _ _ hvw, List.set_set]
    refine (hm₁.trans (hvars ▸ hm₂)).spec ?_ fun hself => hvw hself.1
    rw [readsIn_move hw hslot hvw, expected, reads_of_handle? hw]

/-- **One operation** is defined and keeps the invariant, and the variables read as values do afterwards exactly where
it does not assign a variable to itself. -/
theorem exec_spec (hA : A.Lawful) (hc : Counted A s) {op : Op} {r : Outcome Empty (State μ)}
    (hs : exec A classes s op = some r) : Spec A s op r := by
  cases op with
  | constructNull v =>
    simp only [exec, Option.ite_none_right_eq_some, Option.some_inj] at hs
    obtain ⟨hv, rfl⟩ := hs
    have hslot := State.free_iff.1 hv
    exact (put_moves hc hslot (some none) s.raw fun p => rfl).spec (readsIn_set hslot _) id
  | constructText v text =>
    simp only [exec, Option.ite_none_right_eq_some, Option.some_inj] at hs
    obtain ⟨hv, rfl⟩ := hs
    obtain ⟨hcount, hkeeps, hreads⟩ := State.createString_spec hA hc (State.free_iff.1 hv) text
    exact ⟨_, rfl, hcount, hkeeps, iff_of_true hreads id⟩
  | constructTakeOver v raw =>
    simp only [exec, Option.ite_none_right_eq_some, Option.some_inj] at hs
    obtain ⟨⟨hv, hraw⟩, rfl⟩ := hs
    have hslot := State.free_iff.1 hv
    refine (put_moves hc hslot (some raw) (s.take raw).raw fun p => ?_).spec (readsIn_set hslot _) id
    rw [holds_toList, State.count_take hraw]
    rfl
  | constructBasic v w | constructCopy v w =>
    obtain ⟨h, hw, hs⟩ := Option.bind_eq_some_iff.1 hs
    rw [Option.ite_none_right_eq_some, Option.some_inj] at hs
    obtain ⟨⟨hv, -⟩, rfl⟩ := hs
    refine constructRef_spec hA hc hv (fun p hp => State.refs_pos_of_handle? (hp ▸ hw)) ?_ id
    rw [expected, reads_of_handle? hw]
  | constructMove v w =>
    obtain ⟨h, hw, hs⟩ := Option.bind_eq_some_iff.1 hs
    rw [Option.ite_none_right_eq_some, Option.some_inj] at hs
    obtain ⟨⟨hv, -⟩, rfl⟩ := hs
    have hslot := State.free_iff.1 hv
    have hvw : v ≠ w := by
      rintro rfl
      rw [State.handle?_eq_some, hslot] at hw
      cases hw
    refine (move_moves hc (State.handle?_eq_some.1 hw) hslot rfl hvw).spec ?_ id
    rw [readsIn_move hw hslot hvw, expected, reads_of_handle? hw]
  | assignCopy v w =>
    obtain ⟨old, hv, hs⟩ := Option.bind_eq_some_iff.1 hs
    obtain ⟨h, hw, hs⟩ := Option.bind_eq_some_iff.1 hs
    rw [Option.ite_none_right_eq_some, Option.some_inj] at hs
    obtain ⟨-, rfl⟩ := hs
    exact assignCopy_spec hA hc hv hw
  | assignMove v w =>
    obtain ⟨old, hv, hs⟩ := Option.bind_eq_some_iff.1 hs
    obtain ⟨h, hw, hs⟩ := Option.bind_eq_some_iff.1 hs
    rw [Option.ite_none_right_eq_some, Option.some_inj] at hs
    obtain ⟨-, rfl⟩ := hs
    exact assignMove_spec hA hc hv hw
  | clear v =>
    obtain ⟨old, hv, hs⟩ := Option.bind_eq_some_iff.1 hs
    rw [Option.some_inj] at hs
    obtain ⟨s', hs', hm, -⟩ := State.clear_moves hA hc hv
    rw [← hs, hs']
    exact hm.spec (readsIn_set (State.handle?_eq_some.1 hv) _) id
  | putAbi v out =>
    obtain ⟨old, hv, hs⟩ := Option.bind_eq_some_iff.1 hs
    rw [Option.ite_none_right_eq_some, Option.some_inj] at hs
    obtain ⟨hraw, rfl⟩ := hs
    obtain ⟨s₁, hclear, hm₁, hraw₁, hslot₁, hback⟩ := clear_then hA hc hv
    have howns : s₁.owns out = true := by
      rw [State.owns, hraw₁]
      exact hraw
    rw [hclear]
    refine (hback _ _ (put_moves hm₁.counted hslot₁ (some out) (s₁.take out).raw fun p => ?_)).spec
      (readsIn_set (State.handle?_eq_some.1 hv) _) id
    rw [holds_toList, State.count_take howns]
    rfl
  | detachAbi v =>
    obtain ⟨h, hv, hs⟩ := Option.bind_eq_some_iff.1 hs
    rw [Option.some_inj] at hs
    subst hs
    have hslot := State.handle?_eq_some.1 hv
    refine (put_moves hc hslot (some none) (s.raw ++ h.toList) fun p => ?_).spec (readsIn_set hslot _) id
    rw [holds_null, if_neg Bool.false_ne_true, holds_toList, List.count_append, Nat.add_zero]
  | createFromAbi v source =>
    obtain ⟨h, hb, hs⟩ := Option.bind_eq_some_iff.1 hs
    rw [Option.ite_none_right_eq_some, Option.some_inj] at hs
    obtain ⟨hv, rfl⟩ := hs
    refine constructRef_spec hA hc hv (fun p hp => State.refs_pos_of_borrow (hp ▸ hb)) ?_ id
    rw [expected, hb]
    rfl
  | destruct v =>
    obtain ⟨old, hv, hs⟩ := Option.bind_eq_some_iff.1 hs
    rw [Option.some_inj] at hs
    subst hs
    obtain ⟨s₁, hclear, hm₁, -, hslot₁, hback⟩ := clear_then hA hc hv
    rw [hclear]
    exact (hback _ _ (put_moves hm₁.counted hslot₁ none s₁.raw fun p => rfl)).spec
      (readsIn_set (State.handle?_eq_some.1 hv) _) id

end Ops

/-! ## Every program -/

section Program

variable {classes : ℕ → StringClass} {n : ℕ} {memory : μ}

theorem start_counted (hstart : ∀ p, A.refCount memory p = 0) :
    Counted A ⟨memory, List.replicate n none, [], [], []⟩ := by
  have hrefs (p : ℕ) : State.refs (⟨memory, List.replicate n none, [], [], []⟩ : State μ) p = 0 := by
    simp [State.refs, List.countP_replicate]
  exact ⟨fun p => (hstart p).trans (hrefs p).symm, fun p => by simp [hrefs]⟩

/-- No operation is undefined, and the counting invariant holds after every program. -/
theorem counted_of_run (hA : A.Lawful) (hstart : ∀ p, A.refCount memory p = 0) :
    ∀ t r, (program A classes n memory).run t = some r → ∃ s, r = .ok s ∧ Counted A s := by
  refine Machine.invariant (I := fun _ (r : Outcome Empty (State μ)) => ∃ s, r = .ok s ∧ Counted A s) ?_ ?_
  · exact ⟨_, rfl, start_counted hstart⟩
  · rintro t r op r' _ ⟨s, rfl, hc⟩ hstep
    obtain ⟨s', rfl, hc', -⟩ := exec_spec hA hc hstep
    exact ⟨s', rfl, hc'⟩

/-- **Strings as values**: in every program over variables of the two classes no operation is undefined, so that no
buffer is shared, freed or read after it has been freed; the counts are right, and every buffer is freed once; and the
variables read as values do exactly as long as no variable that is not null is assigned to itself. -/
theorem program_values_iff (A : Allocations μ) (hA : A.Lawful) (classes : ℕ → StringClass) (n : ℕ) (memory : μ)
    (hstart : ∀ p, A.refCount memory p = 0) (t : List Op) (r : Outcome Empty (State μ))
    (hr : (program A classes n memory).run t = some r) :
    (∃ s, r = .ok s ∧ Counted A s ∧ ∀ v p, s.handle? v = some (some p) → 0 < A.refCount s.memory p) ∧
      (Values A (program A classes n memory) t ↔ NoSelfAssignment (program A classes n memory) t) := by
  constructor
  · obtain ⟨s, rfl, hc⟩ := counted_of_run hA hstart t r hr
    exact ⟨s, rfl, hc, fun v p hp => hc.refs p ▸ State.refs_pos_of_handle? hp⟩
  -- every step of the run satisfies `exec_spec`, whose equivalence is the one of the theorem
  have hsteps : ∀ t₁ op t₂ s, t = t₁ ++ op :: t₂ → (program A classes n memory).run t₁ = some (.ok s) →
      ∃ s', (program A classes n memory).run (t₁ ++ [op]) = some (.ok s') ∧ A.Keeps s.memory s'.memory ∧
        (s'.reads A = expected A s op ↔ ¬ SelfAssigns s op) := by
    rintro t₁ op t₂ s rfl hs
    rw [List.append_cons] at hr
    obtain ⟨r', hr'⟩ := Machine.run_of_append _ hr
    obtain ⟨s₁, hs₁, hstep⟩ := (Machine.run_concat_eq_some _).1 hr'
    obtain rfl : s₁ = .ok s := Option.some_inj.1 (hs₁.symm.trans hs)
    obtain ⟨_, hok, hc⟩ := counted_of_run hA hstart t₁ _ hs
    cases hok
    obtain ⟨s', rfl, -, hkeeps, hiff⟩ := exec_spec hA hc hstep
    exact ⟨s', hr', hkeeps, hiff⟩
  constructor
  · intro hvalues t₁ op t₂ s ht hs
    obtain ⟨s', hs', -, hiff⟩ := hsteps t₁ op t₂ s ht hs
    exact hiff.1 (hvalues t₁ op t₂ s s' ht hs hs').1
  · intro hno t₁ op t₂ s s' ht hs hs'
    obtain ⟨s₂, hs₂, hkeeps, hiff⟩ := hsteps t₁ op t₂ s ht hs
    rw [hs'] at hs₂
    cases hs₂
    exact ⟨hiff.2 (hno t₁ op t₂ s ht hs), hkeeps⟩

end Program

/-! ## Buffers that are never moved -/

/-- Buffers with their counts, by their addresses; an address is used once. -/
def tableAllocations : Allocations (List (String × ℕ)) where
  refCount m p := (m[p]?.map Prod.snd).getD 0
  text m p := (m[p]?.map Prod.fst).getD ""
  createParamString m text := (m ++ [(text, 1)], some m.length)
  createParamStringRef m handle := (handle.elim m fun p => m.modify p fun b => (b.1, b.2 + 1), handle)
  freeParamString m p := m.modify p fun b => (b.1, b.2 - 1)

theorem getElem?_concat (m : List (String × ℕ)) (b : String × ℕ) (p : ℕ) :
    (m ++ [b])[p]? = if m.length = p then some b else m[p]? := by
  rcases Nat.lt_trichotomy p m.length with hlt | rfl | hgt
  · rw [List.getElem?_append_left hlt, if_neg (by omega)]
  · rw [List.getElem?_concat_length, if_pos rfl]
  · have hle : (m ++ [b]).length ≤ p := by
      rw [List.length_append, List.length_singleton]
      omega
    rw [if_neg (by omega), List.getElem?_eq_none hle, List.getElem?_eq_none (by omega)]

theorem tableAllocations_lawful : tableAllocations.Lawful where
  create m text := by
    have hget := getElem?_concat m (text, 1)
    refine ⟨fun p hp _ => ?_, ?_, ?_, fun p => ?_⟩
    · have hne : m.length ≠ p := by
        rintro rfl
        simp [tableAllocations] at hp
      simp [tableAllocations, hget, hne]
    · simp [tableAllocations]
    · simp [tableAllocations]
    · simp only [tableAllocations, hget]
      split
      · next heq => simp [← heq]
      · rfl
  ref_null m := rfl
  ref m q hq := by
    refine ⟨rfl, fun p _ _ => ?_, fun p => ?_⟩
    · simp only [tableAllocations, Option.elim, List.getElem?_modify]
      cases m[p]? with
      | none => rfl
      | some b => by_cases hqp : q = p <;> simp [hqp]
    · simp only [tableAllocations, Option.elim, List.getElem?_modify] at hq ⊢
      by_cases hqp : q = p
      · subst hqp
        cases hm : m[q]? with
        | none => simp [hm] at hq
        | some b => simp
      · simp [hqp]
  free m q hq := by
    refine ⟨fun p _ _ => ?_, fun p => ?_⟩
    · simp only [tableAllocations, List.getElem?_modify]
      cases m[p]? with
      | none => rfl
      | some b => by_cases hqp : q = p <;> simp [hqp]
    · simp only [tableAllocations, List.getElem?_modify] at hq ⊢
      by_cases hqp : q = p
      · subst hqp
        cases hm : m[q]? with
        | none => simp [hm] at hq
        | some b =>
          simp [hm] at hq ⊢
          omega
      · simp [hqp]

/-- A string is made, shared, and the copy is assigned and moved. -/
def sharingRun : List Op :=
  [.constructText 0 "a", .constructCopy 1 0, .constructText 2 "b", .assignCopy 1 2, .assignMove 0 1, .detachAbi 2,
    .putAbi 1 (some 1), .destruct 0, .destruct 1]

theorem program_values_iff_run :
    (∃ s, (program tableAllocations (fun _ => .paramString) 3 []).run sharingRun = some (.ok s) ∧
      s.created = [0, 1] ∧ s.freed = [0, 1] ∧ Counted tableAllocations s) ∧
    (Values tableAllocations (program tableAllocations (fun _ => .paramString) 3 []) sharingRun ↔
      NoSelfAssignment (program tableAllocations (fun _ => .paramString) 3 []) sharingRun) := by
  obtain ⟨⟨s, hs, hc, -⟩, hiff⟩ := program_values_iff tableAllocations tableAllocations_lawful (fun _ => .paramString) 3
    [] (fun p => rfl) sharingRun _ rfl
  cases hs
  exact ⟨⟨_, rfl, rfl, rfl, hc⟩, hiff⟩

/-- A variable that holds the only reference to its buffer is assigned to itself: the buffer is freed, and the variable
is null. -/
theorem not_values_selfAssignment :
    ∃ s s', (program tableAllocations (fun _ => .paramString) 1 []).run [.constructText 0 "a"] = some (.ok s) ∧
      (program tableAllocations (fun _ => .paramString) 1 []).run [.constructText 0 "a", .assignCopy 0 0] = some (.ok s') ∧
      s.reads tableAllocations 0 = some (some "a") ∧ s'.reads tableAllocations 0 = some none ∧
      ¬ Values tableAllocations (program tableAllocations (fun _ => .paramString) 1 [])
        [.constructText 0 "a", .assignCopy 0 0] := by
  refine ⟨_, _, rfl, rfl, rfl, rfl, fun hvalues => ?_⟩
  have hreads := (hvalues [.constructText 0 "a"] (.assignCopy 0 0) [] _ _ rfl rfl rfl).1
  have hat := congrFun hreads 0
  cases hat

end Nessus.Abi.ParamString
