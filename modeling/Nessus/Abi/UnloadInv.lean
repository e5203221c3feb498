import Nessus.Abi.Unload
import Nessus.Lib.Acyclic

/-!
# Objects between threads

* `Effect`, `step_cases` — what one step can do;
* `effect_counted` — every step in which no count overflows keeps the invariant;
* `threads_lifetimes` — the lifetimes of the objects, in every interleaving of such steps.
-/

namespace Nessus.Abi.Unload

open Nessus.Lib RefCount

variable {exports : Exports} {s s' : State} {t o p : ℕ} {h h' : Holder} {l : Label}

/-! ## What one step can do -/

/-- The object that is destroyed then. -/
def Label.destroys : Label → Option ℕ
  | .finish _ o => some o
  | _ => none

/-- A step of the thread `t`, with what it destroys. -/
inductive Effect (s : State) (t : ℕ) : Option ℕ → Except Fault State → Prop where
  | same : Effect s t none (.ok s)
  | make {implementation : Implementation} : Effect s t none (.ok (s.make t implementation))
  | addRef {h h' : Holder} {o : ℕ} (hr : (h, o) ∈ s.refs) (hu : s.uses t h' = true) : Effect s t none (s.addRef h' o)
  | move {h h' : Holder} {o : ℕ} (hr : (h, o) ∈ s.refs) (hu : ∀ p, h' = .object p → s.uses t h' = true) :
      Effect s t none (.ok { s with refs := (h', o) :: s.refs.erase (h, o) })
  | release {h : Holder} {o : ℕ} (hr : (h, o) ∈ s.refs) : Effect s t none (s.release t h o)
  | finish {o : ℕ} {x : Object} (hd : s.destructor? t = some o) (hm : ∀ r ∈ s.refs, r.1 ≠ .object o)
      (hx : s.objects[o]? = some x) : Effect s t (some o) (s.finish t o x)
  | leave : Effect s t none (.ok { s with leaving := s.leaving.erase t })

theorem create_effect (c : Option Component) : Effect s t none (.ok (s.create t c)) := by
  cases c with
  | none => exact .same
  | some c => exact .make

theorem exec_cases {r : Except Fault State} (hx : s.exec exports l = some r) : Effect s l.thread l.destroys r := by
  cases l with
  | dllCreateFactory t null =>
    cases hx
    cases null with
    | false => exact .make
    | true => exact .same
  | createByName t f n =>
    obtain ⟨-, ⟨⟩⟩ := Option.ite_none_right_eq_some.1 hx
    exact create_effect _
  | createByInterfaceId t f id =>
    obtain ⟨-, ⟨⟩⟩ := Option.ite_none_right_eq_some.1 hx
    exact create_effect _
  | make t implementation => cases hx; exact .make
  | addRef t h o h' =>
    obtain ⟨⟨hr, -, hu⟩, ⟨⟩⟩ := Option.ite_none_right_eq_some.1 hx
    exact .addRef hr hu
  | move t h o h' =>
    cases h' with
    | thread t' =>
      obtain ⟨⟨hr, -⟩, ⟨⟩⟩ := Option.ite_none_right_eq_some.1 hx
      exact .move hr nofun
    | object p =>
      obtain ⟨⟨hr, -, hu⟩, ⟨⟩⟩ := Option.ite_none_right_eq_some.1 hx
      exact .move hr fun _ _ => hu
  | release t h o =>
    obtain ⟨⟨hr, -⟩, ⟨⟩⟩ := Option.ite_none_right_eq_some.1 hx
    exact .release hr
  | destroyMember t p o =>
    obtain ⟨⟨-, hr⟩, ⟨⟩⟩ := Option.ite_none_right_eq_some.1 hx
    exact .release hr
  | finish t o =>
    obtain ⟨⟨hd, hm⟩, hx⟩ := Option.ite_none_right_eq_some.1 hx
    obtain ⟨x, ho, rfl⟩ := Option.map_eq_some_iff.1 hx
    exact .finish hd hm ho
  | leave t => cases hx
  | dllCanUnloadNow t answer =>
    obtain ⟨-, ⟨⟩⟩ := Option.ite_none_right_eq_some.1 hx
    exact .same

theorem step_cases {r : Except Fault State} (hx : step exports s l = some r) : Effect s l.thread l.destroys r := by
  rw [step.eq_def] at hx
  split at hx
  · split at hx
    · cases hx
      exact .leave
    · cases hx
  · exact exec_cases hx

/-! ## The invariant -/

theorem phase?_eq_some {x : Phase} : s.phase? o = some x ↔ ∃ y, s.objects[o]? = some y ∧ y.phase = x :=
  Option.map_eq_some_iff

theorem phase?_set {x y : Object} (hx : s.objects[o]? = some x) (hs : s'.objects = s.objects.set o y) (p : ℕ) :
    s'.phase? p = if o = p then some y.phase else s.phase? p := by
  obtain ⟨hlt, -⟩ := List.getElem?_eq_some_iff.1 hx
  rw [State.phase?, hs, List.getElem?_set, if_pos hlt, apply_ite (Option.map _)]
  rfl

theorem phase?_make (implementation : Implementation) (p : ℕ) :
    (s.make t implementation).phase? p = if p = s.objects.length then some .alive else s.phase? p := by
  rw [State.phase?, State.phase?, State.make]
  rcases Nat.lt_trichotomy p s.objects.length with hlt | rfl | hgt
  · rw [if_neg (Nat.ne_of_lt hlt), List.getElem?_append_left hlt]
  · rw [if_pos rfl, List.getElem?_concat_length]
    rfl
  · rw [if_neg (Nat.ne_of_gt hgt), List.getElem?_eq_none (by simp; omega), List.getElem?_eq_none (by omega)]

theorem phase?_ne_length {x : Phase} (hx : s.phase? p = some x) : p ≠ s.objects.length := by
  obtain ⟨y, hy, -⟩ := phase?_eq_some.1 hx
  exact Nat.ne_of_lt (List.getElem?_eq_some_iff.1 hy).1

theorem present_set {x y : Object} (hx : s.objects[o]? = some x) (hpx : x.phase ≠ .destroyed)
    (hpy : y.phase ≠ .destroyed) : (s.objects.set o y).countP (·.phase != .destroyed) = s.present := by
  have := countP_set (p := (·.phase != .destroyed)) hx y
  simpa [State.present, hpx, hpy] using this

theorem mem_of_destructor? (hd : s.destructor? t = some o) : (t, o) ∈ s.destructors := by
  obtain ⟨⟨t', o'⟩, hfind, rfl⟩ := Option.map_eq_some_iff.1 hd
  have ht := List.find?_some hfind
  rw [beq_iff_eq] at ht
  exact ht ▸ List.mem_of_find?_eq_some hfind

theorem refsTo_pos (hr : (h, o) ∈ s.refs) : 0 < s.refsTo o := List.countP_pos_iff.2 ⟨_, hr, by simp⟩

theorem refsTo_cons (r : Holder × ℕ) (refs : List (Holder × ℕ)) (p : ℕ) :
    (r :: refs).countP (·.2 == p) = refs.countP (·.2 == p) + if r.2 = p then 1 else 0 := by
  rw [List.countP_cons]
  simp

theorem refsTo_erase (hr : (h, o) ∈ s.refs) (p : ℕ) :
    (s.refs.erase (h, o)).countP (·.2 == p) + (if o = p then 1 else 0) = s.refsTo p := by
  have := countP_erase (p := (·.2 == p)) hr
  simpa [State.refsTo] using this

namespace Counted

theorem get_ref (hc : Counted s) (hr : (h, o) ∈ s.refs) :
    ∃ x, s.objects[o]? = some x ∧ x.phase = .alive ∧ s.deref o = .ok x ∧ x.refCount.toNat = s.refsTo o := by
  obtain ⟨x, hx, halive, hcount⟩ := hc.get (refsTo_pos hr)
  have halive := of_decide_eq_true halive
  exact ⟨x, hx, halive, by simp only [State.deref, hx, if_pos halive], hcount⟩

theorem uses_present (hc : Counted s) (hu : s.uses t (.object p) = true) :
    ∃ x, s.phase? p = some x ∧ x ≠ .destroyed := by
  rcases (Bool.or_eq_true _ _).mp hu with halive | hd
  · exact ⟨.alive, beq_iff_eq.1 halive, nofun⟩
  · have hd := beq_iff_eq.1 hd
    exact ⟨.destroying, (hc.destroying_iff p).1 ⟨t, mem_of_destructor? hd⟩, nofun⟩

end Counted

theorem start_counted : Counted State.start where
  count o x hx := by cases hx
  alive_iff o x hx := by cases hx
  created o _ := rfl
  destroying_iff o := by simp [State.start, State.phase?]
  nodup := by simp [State.start]
  members p o hr := by cases hr
  module := rfl

namespace Counted

variable (hc : Counted s)

include hc

/-- A live object is replaced by a live one with the right count, and the references change with it. -/
theorem setAlive {x y : Object} {refs : List (Holder × ℕ)} (hx : s.objects[o]? = some x) (hpx : x.phase = .alive)
    (hpy : y.phase = .alive) (hpos : 0 < refs.countP (·.2 == o)) (hcount : y.refCount.toNat = refs.countP (·.2 == o))
    (hother : ∀ p, p ≠ o → refs.countP (·.2 == p) = s.refsTo p)
    (hm : ∀ p q, (Holder.object p, q) ∈ refs → ∃ z, s.phase? p = some z ∧ z ≠ .destroyed) :
    Counted { s with objects := s.objects.set o y, refs } where
  toRefCounted := hc.set hx (iff_of_true (by simp [hpy]) hpos) (fun _ => hcount) hother
  destroying_iff p := by
    have hphase : State.phase? { s with objects := s.objects.set o y, refs } p = _ := phase?_set hx rfl p
    rw [hc.destroying_iff, hphase]
    split
    · next hop =>
      subst hop
      rw [phase?_eq_some.2 ⟨x, hx, hpx⟩, hpy]
    · rfl
  nodup := hc.nodup
  members p q hr := by
    rw [phase?_set hx rfl]
    split
    · exact ⟨.alive, congrArg some hpy, nofun⟩
    · exact hm p q hr
  module := by
    rw [hc.module, State.present, State.present, present_set hx (by simp [hpx]) (by simp [hpy])]
    rfl

theorem make (implementation : Implementation) (hlt : s.present + 1 < 2 ^ 32) : Counted (s.make t implementation) where
  toRefCounted := hc.concat (by simp) rfl fun p => refsTo_cons _ _ p
  destroying_iff p := by
    refine (hc.destroying_iff p).trans ?_
    rw [phase?_make]
    split
    · next hp =>
      exact iff_of_false (fun h => phase?_ne_length h hp) nofun
    · rfl
  nodup := hc.nodup
  members p q hr := by
    rcases List.mem_cons.1 hr with hr | hr
    · cases hr
    · obtain ⟨z, hz, hne⟩ := hc.members p q hr
      exact ⟨z, by rw [phase?_make, if_neg (phase?_ne_length hz), hz], hne⟩
  module := by
    rw [State.make, refCount_succ (by rw [hc.module]; exact hlt), hc.module, State.present, State.present, countP_concat]
    rfl

theorem addRef (hr : (h, o) ∈ s.refs) (hu : s.uses t h' = true) (hb : ∀ s', s.addRef h' o = .ok s' → s'.Bounded) :
    ∃ s', s.addRef h' o = .ok s' ∧ Counted s' ∧ ∀ p, s'.phase? p = s.phase? p := by
  obtain ⟨x, hx, halive, hderef, hcount⟩ := hc.get_ref hr
  have hself := refsTo_cons (h', o) s.refs o
  rw [if_pos rfl] at hself
  have hok : s.addRef h' o = .ok { s with
      objects := s.objects.set o { x with refCount := x.refCount + 1 }, refs := (h', o) :: s.refs } := by
    rw [State.addRef, hderef]
    rfl
  have hlt : s.refsTo o + 1 < 2 ^ 32 := hself ▸ (hb _ hok).refs o
  refine ⟨_, hok, ?_, fun p => ?_⟩
  · refine hc.setAlive hx halive halive (by rw [hself]; omega) ?_ (fun p hp => ?_) fun p q hq => ?_
    · rw [refCount_succ (by rw [hcount]; exact hlt), hcount, hself]
      rfl
    · rw [refsTo_cons, if_neg (Ne.symm hp)]
      rfl
    · rcases List.mem_cons.1 hq with hq | hq
      · cases hq
        exact hc.uses_present hu
      · exact hc.members p q hq
  · rw [phase?_set hx rfl]
    split
    · next hop => rw [← hop, phase?_eq_some.2 ⟨x, hx, halive⟩]; exact congrArg some halive
    · rfl

theorem move (hr : (h, o) ∈ s.refs) (hu : ∀ p, h' = .object p → s.uses t h' = true) :
    Counted { s with refs := (h', o) :: s.refs.erase (h, o) } where
  toRefCounted := hc.congr fun p => (refsTo_erase hr p).symm.trans (refsTo_cons (h', o) (s.refs.erase (h, o)) p).symm
  destroying_iff := hc.destroying_iff
  nodup := hc.nodup
  members p q hq := by
    rcases List.mem_cons.1 hq with hq | hq
    · cases hq
      exact hc.uses_present (hu p rfl)
    · exact hc.members p q (List.mem_of_mem_erase hq)
  module := hc.module

/-- The last reference to an object is gone, and the thread goes into its destructor. -/
theorem beginDestructor (t : ℕ) {x : Object} {c : UInt32} {refs : List (Holder × ℕ)} (hx : s.objects[o]? = some x)
    (hpx : x.phase = .alive) (hzero : refs.countP (·.2 == o) = 0)
    (hother : ∀ p, p ≠ o → refs.countP (·.2 == p) = s.refsTo p) (hm : ∀ r ∈ refs, r ∈ s.refs) :
    Counted { s with
      objects := s.objects.set o { x with refCount := c, phase := .destroying }, refs
      destructors := (t, o) :: s.destructors } := by
  have hnone : o ∉ s.destructors.map (·.2) := by
    intro hmem
    obtain ⟨⟨t', o'⟩, hrunning, rfl⟩ := List.mem_map.1 hmem
    have hphase := (hc.destroying_iff o').1 ⟨t', hrunning⟩
    rw [phase?_eq_some.2 ⟨x, hx, hpx⟩] at hphase
    cases hphase
  have hphase (p : ℕ) : State.phase? { s with
      objects := s.objects.set o { x with refCount := c, phase := .destroying }, refs
      destructors := (t, o) :: s.destructors } p = _ := phase?_set hx rfl p
  refine { toRefCounted := hc.set hx (iff_of_false (by simp) ?_) (fun ha => absurd (of_decide_eq_true ha) nofun) hother,
           destroying_iff := fun p => ?_, nodup := List.nodup_cons.2 ⟨hnone, hc.nodup⟩, members := fun p q hq => ?_,
           module := ?_ }
  · exact (Nat.lt_irrefl 0 <| hzero ▸ ·)
  · rw [hphase]
    by_cases hop : o = p
    · rw [if_pos hop, ← hop]
      exact iff_of_true ⟨t, List.mem_cons_self⟩ rfl
    · rw [if_neg hop, ← hc.destroying_iff]
      simp [Ne.symm hop]
  · rw [hphase]
    split
    · exact ⟨.destroying, rfl, nofun⟩
    · exact hc.members p q (hm _ hq)
  · rw [hc.module, State.present, State.present, present_set hx (by simp [hpx]) (by simp)]
    rfl

/-- **A reference is let go of**: the object stays, or its destructor begins in the thread. -/
theorem release (t : ℕ) (hr : (h, o) ∈ s.refs) :
    ∃ s', s.release t h o = .ok s' ∧ Counted s' ∧ s'.refs = s.refs.erase (h, o) ∧ s'.leaving = s.leaving ∧
      s'.present = s.present ∧ ∀ p, s'.phase? p = some .destroyed ↔ s.phase? p = some .destroyed := by
  obtain ⟨x, hx, halive, hderef, hcount⟩ := hc.get_ref hr
  have hpos := refsTo_pos hr
  have hne : x.refCount ≠ 0 := by
    intro hzero
    rw [hzero] at hcount
    exact absurd hcount (by simp; omega)
  have hself := refsTo_erase hr o
  rw [if_pos rfl] at hself
  have hpred : (x.refCount - 1).toNat = (s.refs.erase (h, o)).countP (·.2 == o) := by
    rw [refCount_pred (by omega)]
    omega
  have hother (p : ℕ) (hp : p ≠ o) : (s.refs.erase (h, o)).countP (·.2 == p) = s.refsTo p := by
    rw [← refsTo_erase hr, if_neg (Ne.symm hp)]
    rfl
  have hkept {y : Object} {s' : State} (hy : y.phase ≠ .destroyed) (hs : s'.objects = s.objects.set o y) (p : ℕ) :
      s'.phase? p = some .destroyed ↔ s.phase? p = some .destroyed := by
    rw [phase?_set hx hs]
    split
    · next hop =>
      rw [← hop, phase?_eq_some.2 ⟨x, hx, halive⟩]
      simp [hy]
    · rfl
  rw [State.release, hderef]
  by_cases hlast : x.refCount - 1 = 0
  · refine ⟨_, (if_neg hne).trans (if_pos hlast), ?_, rfl, rfl, present_set hx (by simp [halive]) (by simp),
      hkept (by simp) rfl⟩
    refine hc.beginDestructor t hx halive ?_ hother fun r => List.mem_of_mem_erase
    rw [← hpred, hlast]
    rfl
  · refine ⟨_, (if_neg hne).trans (if_neg hlast), ?_, rfl, rfl, present_set hx (by simp [halive]) (by simp [halive]),
      hkept (by simp [halive]) rfl⟩
    refine hc.setAlive hx halive halive ?_ hpred hother fun p q hq => hc.members p q (List.mem_of_mem_erase hq)
    rw [← hpred]
    exact Nat.pos_of_ne_zero fun hzero => hlast (UInt32.toNat_inj.1 hzero)

/-- **The destructor ends**: the object is gone. -/
theorem finish {x : Object} (hd : s.destructor? t = some o) (hm : ∀ r ∈ s.refs, r.1 ≠ .object o)
    (hx : s.objects[o]? = some x) :
    ∃ s', s.finish t o x = .ok s' ∧ Counted s' ∧ s'.refs = s.refs ∧ s'.leaving = t :: s.leaving ∧
      s'.present + 1 = s.present ∧ ∀ p, s'.phase? p = some .destroyed ↔ s.phase? p = some .destroyed ∨ o = p := by
  have hmem := mem_of_destructor? hd
  have hdestroying := (hc.destroying_iff o).1 ⟨t, hmem⟩
  obtain ⟨y, hy, hphase⟩ := phase?_eq_some.1 hdestroying
  obtain rfl : x = y := Option.some.inj (hx.symm.trans hy)
  have hpresent := countP_set (p := (·.phase != .destroyed)) hx { x with phase := .destroyed }
  rw [if_pos (by simp [hphase]), if_neg (by simp), Nat.add_zero] at hpresent
  have hpresent : (s.objects.set o { x with phase := .destroyed }).countP (·.phase != .destroyed) + 1 = s.present :=
    hpresent
  have hne : s.moduleRefCount ≠ 0 := by
    intro hzero
    have := hc.module
    rw [hzero, ← hpresent] at this
    exact absurd this (by simp)
  have hdead : ¬ 0 < s.refsTo o := by
    rw [← hc.alive_iff o x hx, hphase]
    decide
  refine ⟨_, if_neg hne, ?_, rfl, rfl, hpresent, fun p => ?_⟩
  · have hset (p : ℕ) : State.phase? { s with
        objects := s.objects.set o { x with phase := .destroyed }
        destructors := s.destructors.erase (t, o)
        leaving := t :: s.leaving
        moduleRefCount := s.moduleRefCount - 1 } p = _ := phase?_set hx rfl p
    refine { toRefCounted := hc.set hx (iff_of_false (by simp) hdead) (fun ha => absurd (of_decide_eq_true ha) nofun)
               fun _ _ => rfl,
             destroying_iff := fun p => ?_, nodup := hc.nodup.sublist (List.erase_sublist.map _),
             members := fun p q hq => ?_, module := ?_ }
    · rw [hset]
      have herase (t' : ℕ) : (t', p) ∈ s.destructors.erase (t, o) ↔ (t', p) ≠ (t, o) ∧ (t', p) ∈ s.destructors :=
        hc.nodup.of_map.mem_erase_iff
      simp only [herase]
      by_cases hop : o = p
      · subst hop
        -- the destructor that has ended was the only one of the object
        rw [if_pos rfl]
        exact iff_of_false (fun ⟨t', hne, hmem'⟩ => hne (List.inj_on_of_nodup_map hc.nodup hmem' hmem rfl)) nofun
      · rw [if_neg hop, ← hc.destroying_iff]
        exact exists_congr fun t' => and_iff_right fun heq => hop (congrArg Prod.snd heq).symm
    · rw [hset, if_neg fun hop => hm _ hq (congrArg _ hop.symm)]
      exact hc.members p q hq
    · rw [refCount_pred (by rw [hc.module]; omega), hc.module, ← hpresent]
      rfl
  · rw [phase?_set hx rfl]
    split
    · next hop => simp [hop]
    · next hop => simp [hop]

theorem leave : Counted { s with leaving := s.leaving.erase t } :=
  ⟨hc.toRefCounted, hc.destroying_iff, hc.nodup, hc.members, hc.module⟩

end Counted

/-- **One step keeps the invariant**, if no count overflows, and destroys what its label says. -/
theorem effect_counted (hc : Counted s) {d : Option ℕ} {r : Except Fault State} (he : Effect s t d r)
    (hb : ∀ s', r = .ok s' → s'.Bounded) :
    ∃ s', r = .ok s' ∧ Counted s' ∧ ∀ p, s'.phase? p = some .destroyed ↔ s.phase? p = some .destroyed ∨ d = some p := by
  cases he with
  | same => exact ⟨s, rfl, hc, by simp⟩
  | @make implementation =>
    have hlt : s.present + 1 < 2 ^ 32 := by
      have := (hb _ rfl).present
      rw [State.present, State.make, countP_concat] at this
      exact this
    refine ⟨_, rfl, hc.make implementation hlt, fun p => ?_⟩
    rw [phase?_make]
    split
    · next hp => simpa using fun h => phase?_ne_length h hp
    · simp
  | addRef hr hu =>
    obtain ⟨s', hs', hc', hphase⟩ := hc.addRef hr hu hb
    exact ⟨s', hs', hc', fun p => by simp [hphase]⟩
  | move hr hu => exact ⟨_, rfl, hc.move hr hu, fun p => by simp [State.phase?]⟩
  | release hr =>
    obtain ⟨s', hs', hc', -, -, -, hphase⟩ := hc.release t hr
    exact ⟨s', hs', hc', by simpa using hphase⟩
  | finish hd hm hx =>
    obtain ⟨s', hs', hc', -, -, -, hphase⟩ := hc.finish hd hm hx
    exact ⟨s', hs', hc', by simpa using hphase⟩
  | leave => exact ⟨_, rfl, hc.leave, fun p => by simp [State.phase?]⟩

/-! ## Every interleaving -/

theorem Effect.destroying (hc : Counted s) {r : Except Fault State} (he : Effect s t (some o) r) :
    s.phase? o = some .destroying := by
  cases he with
  | finish hd _ _ => exact (hc.destroying_iff o).1 ⟨t, mem_of_destructor? hd⟩

/-- In no state on the way has a count overflowed. -/
def NoOverflow (exports : Exports) (trace : List Label) : Prop :=
  ∀ u v s, trace = u ++ v → (threads exports).run u = some (.ok s) → s.Bounded

theorem NoOverflow.of_concat (trace : List Label) (l : Label) (h : NoOverflow exports (trace ++ [l])) :
    NoOverflow exports trace := fun u v s hu => h u (v ++ [l]) s (by simp [hu])

/-- The objects that have been destroyed, in this order. -/
def destroyed (trace : List Label) : List ℕ := trace.filterMap Label.destroys

theorem threads_kept (trace : List Label) (r : Except Fault State) (hrun : (threads exports).run trace = some r)
    (hb : NoOverflow exports trace) :
    ∃ s, r = .ok s ∧ Counted s ∧ (destroyed trace).Nodup ∧ ∀ o, o ∈ destroyed trace ↔ s.phase? o = some .destroyed := by
  refine Machine.invariant_of (I := fun trace r => ∃ s, r = .ok s ∧ Counted s ∧ (destroyed trace).Nodup ∧
    ∀ o, o ∈ destroyed trace ↔ s.phase? o = some .destroyed) NoOverflow.of_concat
    ⟨_, rfl, start_counted, List.nodup_nil, fun o => by simp [destroyed, State.phase?, State.start]⟩ ?_ trace r hb hrun
  rintro trace _ l r' hrun hb ⟨s, rfl, hc, hnodup, hiff⟩ hx
  have he := step_cases hx
  obtain ⟨s', rfl, hc', hphase⟩ := effect_counted hc he fun s' hs' => hb (trace ++ [l]) [] s' (by simp) (by
    rw [Machine.run_concat, hrun, ← hs']
    exact hx)
  have hconcat : destroyed (trace ++ [l]) = destroyed trace ++ l.destroys.toList := by
    rw [destroyed, List.filterMap_append]
    cases hl : l.destroys <;> simp [hl, destroyed]
  refine ⟨s', rfl, hc', ?_, fun o => ?_⟩
  · rw [hconcat]
    cases hl : l.destroys with
    | none => simpa using hnodup
    | some o =>
      rw [hl] at he
      refine List.nodup_append.2 ⟨hnodup, List.nodup_singleton o, fun a ha b hb hab => ?_⟩
      obtain rfl := List.mem_singleton.1 hb
      have := (hiff a).1 ha
      rw [hab, he.destroying hc] at this
      cases this
  · rw [hconcat, List.mem_append, hiff, hphase, Option.mem_toList]

theorem addRef_size (hs : s.addRef h o = .ok s') :
    s'.refs.length = s.refs.length + 1 ∧ s'.objects.length = s.objects.length := by
  obtain ⟨x, -, hx⟩ := except_bind_eq_ok hs
  cases hx
  exact ⟨rfl, List.length_set⟩

theorem release_size (hs : s.release t h o = .ok s') :
    s'.refs.length ≤ s.refs.length ∧ s'.objects.length = s.objects.length := by
  obtain ⟨x, -, hx⟩ := except_bind_eq_ok hs
  split at hx
  · cases hx
  · split at hx <;> cases hx <;> exact ⟨List.length_erase_le, List.length_set⟩

/-- A step makes at most one reference and one object. -/
theorem effect_size {d : Option ℕ} {r : Except Fault State} (he : Effect s t d r) (hs : r = .ok s') :
    s'.refs.length ≤ s.refs.length + 1 ∧ s'.objects.length ≤ s.objects.length + 1 := by
  cases he with
  | same => cases hs; omega
  | make => cases hs; simp [State.make]
  | addRef _ _ =>
    have := addRef_size hs
    omega
  | @move h h' o hr _ =>
    cases hs
    have := List.length_erase_le (a := (h, o)) (l := s.refs)
    simp only [List.length_cons]
    omega
  | release _ =>
    have := release_size hs
    omega
  | finish _ _ _ =>
    rw [State.finish] at hs
    split at hs <;> cases hs
    simp
  | leave => cases hs; simp

theorem threads_size (trace : List Label) (s : State) (hrun : (threads exports).run trace = some (.ok s)) :
    s.refs.length ≤ trace.length ∧ s.objects.length ≤ trace.length := by
  refine Machine.invariant (I := fun trace (r : Except Fault State) => ∀ s, r = .ok s →
    s.refs.length ≤ trace.length ∧ s.objects.length ≤ trace.length) ?_ ?_ trace (.ok s) hrun s rfl
  · rintro s ⟨⟩
    exact ⟨Nat.le_refl 0, Nat.le_refl 0⟩
  · rintro trace (_ | s) l r' - hi hx s' rfl
    · cases hx
    · have hold := hi s rfl
      have := effect_size (step_cases hx) rfl
      rw [List.length_append, List.length_singleton]
      omega

/-- **In short runs no count overflows.** -/
theorem noOverflow_of_short {trace : List Label} (h : trace.length < 2 ^ 32) : NoOverflow exports trace := by
  rintro u v s rfl hrun
  obtain ⟨hrefs, hobjects⟩ := threads_size u s hrun
  rw [List.length_append] at h
  exact ⟨fun o => (List.countP_le_length.trans hrefs).trans_lt (by omega),
    (List.countP_le_length.trans hobjects).trans_lt (by omega)⟩

/-- Two threads hold an object, and the second one lets go of it last. -/
def shared : List Label :=
  [.make 0 plainClass, .addRef 0 (.thread 0) 0 (.thread 0), .move 0 (.thread 0) 0 (.thread 1),
    .release 0 (.thread 0) 0, .release 1 (.thread 1) 0]

end Nessus.Abi.Unload
