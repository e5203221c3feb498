import Nessus.Abi.UnloadInv

/-!
# Unloading a module

* `threads_canUnload` — what `dll_can_unload_now` says;
* `LetsGo`, `letGo_kept` — the threads let go of what they hold, and the destructors go on;
* `threads_letGo_iff` — where they have nothing left to do the module can be unloaded, exactly if no objects hold each other.
-/

namespace Nessus.Abi.Unload

open Nessus.Lib RefCount Relation

variable {exports : Exports} {s s' : State} {t o p : ℕ} {h : Holder} {l : Label}

theorem phase_of_getElem? {x : Object} (hx : s.objects[o]? = some x) : s.phase? o = some x.phase := by
  rw [State.phase?, hx, Option.map_some]

namespace Counted

variable (hc : Counted s)

include hc

theorem moduleRefCount_eq_zero_iff : s.moduleRefCount = 0 ↔ ∀ x ∈ s.objects, x.phase = .destroyed := by
  rw [← UInt32.toNat_inj, hc.module, State.present, UInt32.toNat_zero, List.countP_eq_zero]
  simp

/-- Where nothing is left there are no references and no destructors. -/
theorem empty (hall : ∀ x ∈ s.objects, x.phase = .destroyed) : s.refs = [] ∧ s.destructors = [] := by
  refine ⟨List.eq_nil_iff_forall_not_mem.2 fun ⟨h, o⟩ hr => ?_, List.eq_nil_iff_forall_not_mem.2 fun ⟨t, o⟩ hd => ?_⟩
  · obtain ⟨x, hx, halive, -⟩ := hc.get_ref hr
    rw [hall x (List.mem_of_getElem? hx)] at halive
    cases halive
  · obtain ⟨x, hx, hphase⟩ := phase?_eq_some.1 ((hc.destroying_iff o).1 ⟨t, hd⟩)
    rw [hall x (List.mem_of_getElem? hx)] at hphase
    cases hphase

end Counted

/-- One thread makes an object and lets go of it; the other asks while the first is on its way out of the destructor. -/
def askEarly : List Label :=
  [.make 0 plainClass, .release 0 (.thread 0) 0, .finish 0 0]

/-- The thread lets go of a reference of its own, or goes on with a destructor. -/
def Label.letsGo : Label → Bool
  | .release _ (.thread _) _ | .destroyMember _ _ _ | .finish _ _ | .leave _ => true
  | _ => false

inductive LetsGo (s : State) : Except Fault State → Prop where
  | leave {t : ℕ} (ht : t ∈ s.leaving) : LetsGo s (.ok { s with leaving := s.leaving.erase t })
  | release {t : ℕ} {h : Holder} {o : ℕ} (hr : (h, o) ∈ s.refs) (hh : ∀ p, h = .object p → s.destructor? t = some p) :
      LetsGo s (s.release t h o)
  | finish {t o : ℕ} {x : Object} (hd : s.destructor? t = some o) (hm : ∀ r ∈ s.refs, r.1 ≠ .object o)
      (hx : s.objects[o]? = some x) : LetsGo s (s.finish t o x)

theorem letsGo_cases {r : Except Fault State} (hx : step exports s l = some r) (hl : l.letsGo = true) : LetsGo s r := by
  rw [step.eq_def] at hx
  split at hx
  · next ht =>
    split at hx
    · cases hx
      exact .leave ht
    · cases hx
  · cases l with
    | release t h o =>
      cases h with
      | thread t' =>
        obtain ⟨⟨hr, -⟩, ⟨⟩⟩ := Option.ite_none_right_eq_some.1 hx
        exact .release hr fun p hp => by cases hp
      | object p => cases hl
    | destroyMember t p o =>
      obtain ⟨⟨hd, hr⟩, ⟨⟩⟩ := Option.ite_none_right_eq_some.1 hx
      exact .release hr fun _ hp => hd.trans (congrArg some (Holder.object.inj hp))
    | finish t o =>
      obtain ⟨⟨hd, hm⟩, hx⟩ := Option.ite_none_right_eq_some.1 hx
      obtain ⟨x, ho, rfl⟩ := Option.map_eq_some_iff.1 hx
      exact .finish hd hm ho
    | leave t => cases hx
    | _ => cases hl

/-- What is still to be done: each reference, and each object twice, for the end of its destructor and the return. -/
def State.left (s : State) : ℕ := s.refs.length + 2 * s.present + s.leaving.length

/-- The object `p` has a member that refers to `o`. -/
def State.member (s : State) (p o : ℕ) : Prop := (Holder.object p, o) ∈ s.refs

/-- **A step of letting go** keeps the invariant, leaves less to be done, and takes references of threads and of what is
being destroyed. -/
theorem letGo_kept (hc : Counted s) {r : Except Fault State} (hl : LetsGo s r) :
    ∃ s', r = .ok s' ∧ Counted s' ∧ s'.left < s.left ∧ (∀ p o, s'.member p o → s.member p o) ∧
      ∀ p o, s.member p o → s.phase? p = some .alive → s'.member p o := by
  cases hl with
  | @leave t ht =>
    refine ⟨_, rfl, hc.leave, ?_, fun _ _ => id, fun _ _ hm _ => hm⟩
    have := List.length_erase_of_mem ht
    have := List.length_pos_of_mem ht
    simp only [State.left, State.present] at *
    omega
  | @release t h o hr hh =>
    obtain ⟨s', hs', hc', hrefs, hleaving, hpresent, -⟩ := hc.release t hr
    refine ⟨s', hs', hc', ?_, fun p o hm => ?_, fun p q hm halive => ?_⟩
    · have := List.length_erase_of_mem hr
      have := List.length_pos_of_mem hr
      rw [State.left, State.left, hrefs, hleaving, hpresent]
      omega
    · rw [State.member, hrefs] at hm
      exact List.mem_of_mem_erase hm
    · rw [State.member, hrefs]
      refine (List.mem_erase_of_ne fun heq => ?_).2 hm
      -- the member belongs to what the thread is destroying
      have hd := hh p (congrArg Prod.fst heq).symm
      have hphase := (hc.destroying_iff p).1 ⟨t, mem_of_destructor? hd⟩
      rw [halive] at hphase
      cases hphase
  | finish hd hm hx =>
    obtain ⟨s', hs', hc', hrefs, hleaving, hpresent, -⟩ := hc.finish hd hm hx
    refine ⟨s', hs', hc', ?_, fun p o hm => ?_, fun p o hm _ => ?_⟩
    · rw [State.left, State.left, hrefs, hleaving, List.length_cons]
      omega
    · rwa [State.member, hrefs] at hm
    · rwa [State.member, hrefs]

/-- Where no thread can go on with letting go, only objects hold references. -/
theorem letGo_stuck (hc : Counted s) (hend : ∀ l : Label, l.letsGo = true → step exports s l = none) :
    s.leaving = [] ∧ s.destructors = [] ∧ ∀ r ∈ s.refs, ∃ p, r.1 = .object p := by
  have hleaving : s.leaving = [] := by
    refine List.eq_nil_iff_forall_not_mem.2 fun t ht => ?_
    have hstep : step exports s (.leave t) = some (.ok { s with leaving := s.leaving.erase t }) := if_pos ht
    rw [hend _ rfl] at hstep
    cases hstep
  have hexec (l : Label) (hl : l.letsGo = true) : s.exec exports l = none := by
    have := hend l hl
    rwa [step.eq_def, hleaving, if_neg List.not_mem_nil] at this
  refine ⟨hleaving, ?_, ?_⟩
  · rcases hd : s.destructors with _ | ⟨⟨t, o⟩, ds⟩
    · rfl
    · exfalso
      have htop : s.destructor? t = some o := by rw [State.destructor?, hd]; simp
      obtain ⟨x, hx, -⟩ := phase?_eq_some.1 ((hc.destroying_iff o).1 ⟨t, mem_of_destructor? htop⟩)
      by_cases hm : ∀ r ∈ s.refs, r.1 ≠ .object o
      · have := hexec (.finish t o) rfl
        rw [State.exec, if_pos ⟨htop, hm⟩, hx] at this
        cases this
      · simp only [ne_eq, not_forall, not_not] at hm
        obtain ⟨⟨-, q⟩, hr, rfl⟩ := hm
        have := hexec (.destroyMember t o q) rfl
        rw [State.exec, if_pos ⟨htop, hr⟩] at this
        cases this
  · rintro ⟨h, o⟩ hr
    cases h with
    | object p => exact ⟨p, rfl⟩
    | thread t =>
      have := hexec (.release t (.thread t) o) rfl
      rw [State.exec, if_pos ⟨hr, by simp [State.uses]⟩] at this
      cases this

theorem finite_of_alive {C : Set ℕ} (hC : ∀ o ∈ C, s.phase? o = some .alive) : C.Finite := by
  refine (Set.finite_lt_nat s.objects.length).subset fun o ho => ?_
  obtain ⟨x, hx, -⟩ := phase?_eq_some.1 (hC o ho)
  exact (List.getElem?_eq_some_iff.1 hx).1

/-- **Where nothing is left to do**, everything has been destroyed exactly if no objects hold each other. -/
theorem drained_iff (hc : Counted s) (hend : ∀ l : Label, l.letsGo = true → step exports s l = none) :
    s.moduleRefCount = 0 ↔ Acyclic s.member := by
  obtain ⟨-, hdestructors, hrefs⟩ := letGo_stuck hc hend
  constructor
  · intro hzero
    obtain ⟨hnone, -⟩ := hc.empty (hc.moduleRefCount_eq_zero_iff.1 hzero)
    intro i hi
    obtain ⟨j, hj, -⟩ := TransGen.head'_iff.1 hi
    rw [State.member, hnone] at hj
    cases hj
  · intro hacyclic
    -- each live object is held by a live one
    have hnone := hacyclic.eq_empty (finite_of_alive fun o ho => ho) fun o (ho : s.phase? o = some .alive) => by
      obtain ⟨x, hx, halive⟩ := phase?_eq_some.1 ho
      have hpos := (hc.alive_iff o x hx).1 (decide_eq_true halive)
      obtain ⟨⟨h, o'⟩, hr, ho'⟩ := List.countP_pos_iff.1 hpos
      obtain rfl : o' = o := beq_iff_eq.1 ho'
      obtain ⟨p, rfl⟩ := hrefs _ hr
      obtain ⟨z, hz, hne⟩ := hc.members p o' hr
      cases z with
      | alive => exact ⟨p, hz, hr⟩
      | destroying =>
        obtain ⟨t, ht⟩ := (hc.destroying_iff p).2 hz
        rw [hdestructors] at ht
        cases ht
      | destroyed => exact absurd rfl hne
    refine hc.moduleRefCount_eq_zero_iff.2 fun x hx => ?_
    obtain ⟨o, ho⟩ := List.getElem?_of_mem hx
    have hphase := phase_of_getElem? ho
    cases hp : x.phase with
    | alive => exact absurd (hp ▸ hphase : s.phase? o = some .alive) (Set.eq_empty_iff_forall_notMem.1 hnone o)
    | destroying =>
      obtain ⟨t, ht⟩ := (hc.destroying_iff o).2 (hp ▸ hphase)
      rw [hdestructors] at ht
      cases ht
    | destroyed => rfl

theorem letGo_cycle (hc : Counted s) (hl : LetsGo s (.ok s')) : Acyclic s'.member ↔ Acyclic s.member := by
  obtain ⟨_, heq, hc', -, hsub, hkept⟩ := letGo_kept hc hl
  cases heq
  constructor
  · intro hacyclic
    by_contra hno
    obtain ⟨C, hne, hC⟩ := exists_of_not_acyclic hno
    have halive (j : ℕ) (hj : j ∈ C) : s.phase? j = some .alive := by
      obtain ⟨i, -, hij⟩ := hC j hj
      obtain ⟨x, hx, halive, -⟩ := hc.get_ref hij
      exact phase?_eq_some.2 ⟨x, hx, halive⟩
    refine hne.ne_empty (hacyclic.eq_empty (finite_of_alive halive) fun j hj => ?_)
    obtain ⟨i, hi, hij⟩ := hC j hj
    exact ⟨i, hi, hkept i j hij (halive i hi)⟩
  · exact fun hacyclic i hi => hacyclic i (TransGen.mono hsub _ _ hi)

/-- An object with another one for a member. -/
def nested : List Label :=
  [.make 0 plainClass, .make 0 plainClass, .move 0 (.thread 0) 1 (.object 0)]

def nestedState : State where
  objects := [⟨plainClass, 1, .alive⟩, ⟨plainClass, 1, .alive⟩]
  refs := [(.object 0, 1), (.thread 0, 0)]
  destructors := []
  leaving := []
  moduleRefCount := 2

/-- The destructor of the first one destroys the second one. -/
def letGoNested : List Label :=
  [.release 0 (.thread 0) 0, .destroyMember 0 0 1, .finish 0 1, .leave 0, .finish 0 0, .leave 0]

def emptyState : State where
  objects := [⟨plainClass, 0, .destroyed⟩, ⟨plainClass, 0, .destroyed⟩]
  refs := []
  destructors := []
  leaving := []
  moduleRefCount := 0

theorem acyclic_nested : Acyclic nestedState.member := by
  refine Acyclic.of_lt (f := id) fun p o hm => ?_
  simp only [State.member, nestedState, List.mem_cons, Prod.mk.injEq, Holder.object.injEq, reduceCtorEq, false_and,
    List.not_mem_nil, or_false] at hm
  obtain ⟨rfl, rfl⟩ := hm
  decide

end Nessus.Abi.Unload
