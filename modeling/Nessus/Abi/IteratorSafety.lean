import Nessus.Abi.IteratorSteps

/-!
# When iterators are safe

* `vectorIteratorCall_iff`, `mapIteratorCall_iff` — which calls of an iterator come to a value, and that it is read from
  an element;
* `State.proper_iff_safe` — **one operation is as it should be exactly if it is safe**;
* `iterators_proper_iff` — so are the calls of iterators in a program in which no count overflows.
-/

namespace Nessus.Abi.Iterators

open Nessus.Lib Nessus.Abi.ParamVector

variable {τ T K V : Type}

/-! ## Calls of one iterator -/

theorem vectorIteratorCall_iff (buffer : List T) (index : UInt64) (call : IteratorCall) :
    (vectorIteratorCall buffer index call : Outcome Exn (Reply T K V × UInt64)).DefinedIff
      (call = .current → index.toNat < buffer.length) fun p =>
        call = .current → p.1 ∈ (Content.vector buffer : Content T K V).elements := by
  cases call with
  | current =>
    constructor
    · intro h
      have hlt := h rfl
      have hitem : buffer[index.toNat]? = some buffer[index.toNat] := List.getElem?_eq_getElem hlt
      refine ⟨(.element buffer[index.toNat], index), ?_, fun _ => List.mem_map_of_mem (List.getElem_mem hlt)⟩
      simp only [vectorIteratorCall, atIndex, hitem, Outcome.ok_bind]
    · intro hno
      have hge : buffer.length ≤ index.toNat := by
        by_contra hlt
        exact hno fun _ => by omega
      simp only [vectorIteratorCall, atIndex, List.getElem?_eq_none hge, Outcome.undefined_bind]
  | valid => exact .ok_of (by intro h; cases h) (by intro h; cases h)
  | moveToNext => exact .ok_of (by intro h; cases h) (by intro h; cases h)

/-- A map's iterator: it has to be valid, and not at the end but for `valid`. -/
theorem mapIteratorCall_iff (m : HashMap K V) (iter : MapIterator) (call : IteratorCall) :
    (mapIteratorCall m iter call : Outcome Exn (Reply T K V × MapIterator)).DefinedIff
      (iter.Holds m ∧ (call ≠ .valid → iter.position ≠ none)) fun p =>
        call = .current → p.1 ∈ (Content.hashMap m : Content T K V).elements := by
  by_cases hholds : iter.Holds m
  · cases call with
    | valid =>
      rw [mapIteratorCall, if_pos hholds]
      exact .ok_of ⟨hholds, fun h => absurd rfl h⟩ (by intro h; cases h)
    | current =>
      rw [mapIteratorCall, if_pos hholds]
      cases hposition : iter.position with
      | none => exact .undefined_of fun h => h.2 (by intro h; cases h) rfl
      | some id =>
        obtain ⟨node, hnode⟩ := Option.isSome_iff_exists.1 (hholds.2 id hposition)
        simp only [Option.bind_some, hnode]
        refine .ok_of ⟨hholds, fun _ => Option.some_ne_none id⟩ fun _ => ?_
        exact List.mem_map.2 ⟨node, List.mem_of_find?_eq_some hnode, rfl⟩
    | moveToNext =>
      rw [mapIteratorCall, if_pos hholds]
      cases hposition : iter.position with
      | none => exact .undefined_of fun h => h.2 (by intro h; cases h) rfl
      | some id => exact .ok_of ⟨hholds, fun _ => Option.some_ne_none id⟩ (by intro h; cases h)
  · cases call <;> simp only [mapIteratorCall, if_neg hholds] <;> exact .undefined_of fun h => hholds h.1

/-! ## What is defined, and what is safe -/

section Ended

variable {s : State T K V} {a : Step T K V}

/-- Where nothing else is said of the operation, it is defined exactly if its evaluation is. -/
theorem ended_bind_iff {β : Type} {x : Outcome Exn β} {g : β → Reply T K V × State T K V} :
    Ended (x >>= fun b => .ok (g b)) ↔ (∃ e, x = .thrown e) ∨ ∃ b, x = .ok b := by
  cases x with
  | ok b => exact iff_of_true (.inr ⟨_, rfl⟩) (.inr ⟨b, rfl⟩)
  | thrown e => exact iff_of_true (.inl ⟨e, rfl⟩) (.inl ⟨e, rfl⟩)
  | terminated => exact iff_of_false (by rintro (⟨_, h⟩ | ⟨_, h⟩) <;> cases h) (by rintro (⟨_, h⟩ | ⟨_, h⟩) <;> cases h)
  | undefined => exact iff_of_false (by rintro (⟨_, h⟩ | ⟨_, h⟩) <;> cases h) (by rintro (⟨_, h⟩ | ⟨_, h⟩) <;> cases h)

/-- An operation of the vector ends exactly if its index is valid. -/
theorem ended_run_iff [BEq T] [Inhabited T] {P : Primitives τ} {buffer : List T} {op : VectorOp T}
    {g : ParamVector.Reply T × List T → Reply T K V × State T K V} :
    Ended (op.run P buffer >>= fun p => .ok (g p)) ↔ op.IndexOk buffer := by
  rw [ended_bind_iff]
  constructor
  · intro h
    by_contra hno
    rw [(run_of_not_indexOk P hno).1] at h
    rcases h with ⟨e, h⟩ | ⟨p, h⟩ <;> cases h
  · intro hok
    have hruns := run_runsAs P hok
    cases hspec : op.spec buffer with
    | ok p =>
      rw [hspec] at hruns
      exact .inr ⟨p, hruns⟩
    | error c =>
      rw [hspec] at hruns
      obtain ⟨e, he, -⟩ := hruns
      exact .inl ⟨e, he⟩

theorem safe_of_plain (ha : a.Plain) : s.Safe a := by
  cases a with
  | vector => cases ha
  | iterator => cases ha
  | _ => trivial

theorem safe_iterator_iff {w : ℕ} {call : IteratorCall} {c : Content T K V} (hcontent : s.content? w = some c) :
    s.Safe (.iterator w call) ↔ s.IteratorSafe call c := by
  constructor
  · exact fun h => h c hcontent
  · intro h c' hcontent'
    rw [hcontent] at hcontent'
    cases hcontent'
    exact h

end Ended

/-! ## One operation -/

section Step

variable [BEq T] [Inhabited T] [BEq K] {P : Primitives τ} {s : State T K V} {a : Step T K V}
  {r : Outcome Exn (Reply T K V × State T K V)}

/-- What an operation that is no call of an iterator has to do. -/
theorem proper_iff_ended (ha : ∀ w call, a ≠ .iterator w call) (hs : s.step P a = some r) : s.Proper P a ↔ Ended r := by
  constructor
  · intro h
    rcases h r hs with hthrown | ⟨reply, s', hok, -⟩
    · exact .inl hthrown
    · exact .inr ⟨_, hok⟩
  · rintro h r' hr'
    rw [hs] at hr'
    cases hr'
    rcases h with hthrown | ⟨p, hok⟩
    · exact .inl hthrown
    · exact .inr ⟨p.1, p.2, hok, fun w call haw => absurd haw (ha w call)⟩

theorem proper_of_plain (ha : a.Plain) (hs : s.step P a = some r) (hended : Ended r) : s.Proper P a :=
  (proper_iff_ended (by rintro w call rfl; cases ha) hs).2 hended

theorem proper_of_thrown {e : Exn} (hs : s.step P a = some (.thrown e)) : s.Proper P a := by
  intro r' hr'
  rw [hs] at hr'
  cases hr'
  exact .inl ⟨e, rfl⟩

theorem not_proper_of_undefined (hs : s.step P a = some .undefined) : ¬ s.Proper P a := by
  intro h
  rcases h _ hs with ⟨e, hthrown⟩ | ⟨reply, s', hok, -⟩
  · cases hthrown
  · cases hok

/-- A call of an iterator: it uses the container `impl`, which is alive, and then `x`. -/
theorem proper_iterator_iff {w impl : ℕ} {call : IteratorCall} {c container : Content T K V} {β : Type}
    {x : Outcome Exn (Reply T K V × β)} {g : β → State T K V} {D : Prop} (hcontent : s.content? w = some c)
    (himpl : c.impl? = some impl) (hcontainer : s.contents impl = some container) (halive : s.Alive impl)
    (hs : s.step P (.iterator w call) = some (x >>= fun p => .ok (p.1, g p.2)))
    (hx : x.DefinedIff D fun p => call = .current → p.1 ∈ container.elements) :
    s.Proper P (.iterator w call) ↔ D := by
  constructor
  · intro h
    by_contra hno
    rw [hx.undefined hno] at hs
    exact not_proper_of_undefined hs h
  · intro hd r' hr'
    rw [hs] at hr'
    cases hr'
    obtain ⟨p, rfl, hmem⟩ := hx.defined hd
    refine .inr ⟨p.1, g p.2, rfl, fun w' call' ha => ?_⟩
    cases ha
    exact ⟨c, impl, container, hcontent, himpl, halive, hcontainer, hmem⟩

/-- **One operation is as it should be exactly if it is safe**, where no count overflows. -/
theorem State.proper_iff_safe (hc : RefCount.Counted s.handles.heap s.handles.refs) (hs : s.step P a = some r)
    (hb : EndsBounded r) : s.Proper P a ↔ s.Safe a := by
  cases step_cases hs with
  | null hsafe => exact iff_of_true (proper_of_thrown hs) hsafe
  | dangling hheld hdead => exact absurd ((alive_iff hc).2 hheld) hdead
  | handles hx => exact iff_of_true (proper_of_plain trivial hs (exec_spec hc hx hb).1) trivial
  | make ha hfits hx => exact iff_of_true (proper_of_plain ha hs (make_spec hc hx hb).1) (safe_of_plain ha)
  | hashMap ha hw hx => exact iff_of_true (proper_of_plain ha hs (ended_bind_iff.2 hx)) (safe_of_plain ha)
  | @vector w o op buffer hw =>
    rw [proper_iff_ended (fun _ _ h => by cases h) hs, ended_run_iff]
    constructor
    · intro h buffer' hbuffer'
      rw [hw.content?] at hbuffer'
      cases hbuffer'
      exact h
    · exact fun h => h buffer hw.content?
  | @vectorIterator w o impl index buffer call hw halive hbuffer =>
    rw [safe_iterator_iff hw.content?, proper_iterator_iff (g := fun index => s.store o (.vectorIterator impl index))
      hw.content? rfl hbuffer halive hs (vectorIteratorCall_iff buffer index call)]
    constructor
    · intro h
      refine ⟨(alive_iff hc).1 halive, fun hcurrent buffer' hbuffer' => ?_⟩
      rw [hbuffer] at hbuffer'
      cases hbuffer'
      exact h hcurrent
    · exact fun h hcurrent => h.2 hcurrent buffer hbuffer
  | @mapIterator w o impl iter m call hw halive hm =>
    rw [safe_iterator_iff hw.content?, proper_iterator_iff (g := fun iter => s.store o (.mapIterator impl iter))
      hw.content? rfl hm halive hs (mapIteratorCall_iff m iter call)]
    constructor
    · intro h
      refine ⟨(alive_iff hc).1 halive, fun m' hm' => ?_⟩
      rw [hm] at hm'
      cases hm'
      exact h
    · exact fun h => h.2 m hm
  | @gone w o impl c call hw himpl hdead =>
    refine iff_of_false (not_proper_of_undefined hs) fun hsafe => hdead ((alive_iff hc).2 ?_)
    have hiterator := (safe_iterator_iff hw.content?).1 hsafe
    cases c with
    | vector buffer => cases himpl
    | hashMap m => cases himpl
    | vectorIterator impl' index =>
      cases himpl
      exact hiterator.1
    | mapIterator impl' iter =>
      cases himpl
      exact hiterator.1

end Step

/-! ## Programs -/

section Programs

variable [BEq T] [Inhabited T] [BEq K] (P : Primitives τ) (n : ℕ)

/-- **An operation of a program is as it should be exactly if it is safe.** -/
theorem iterators_proper_iff_safe {t : List (Step T K V)} {r : Outcome Exn (State T K V)}
    (hr : (iterators P n).run t = some r) (hb : NoOverflow P n t) {u : List (Step T K V)} {a : Step T K V}
    {s : State T K V} (hua : u ++ [a] <+: t) (hu : (iterators P n).run u = some (.ok s)) :
    s.Proper P a ↔ s.Safe a := by
  obtain ⟨v, rfl⟩ := hua
  obtain ⟨r', hr'⟩ := (iterators P n).run_of_append hr
  obtain ⟨_, hu', ha⟩ := (iterators P n).run_concat_eq_some.1 hr'
  rw [hu] at hu'
  cases hu'
  obtain ⟨q, hq, hqr⟩ := Option.map_eq_some_iff.1 ha
  have hprefix : u <+: u ++ [a] ++ v := by
    rw [List.append_assoc]
    exact List.prefix_append u _
  refine State.proper_iff_safe (iterators_counted P n hb u s hprefix hu) hq ?_
  rintro reply s' rfl
  cases hqr
  exact hb (u ++ [a]) s' (List.prefix_append _ v) hr'

/-- **Iterators are safe** in a program in which no count overflows exactly if each call of an iterator observes what it
has to. -/
theorem iterators_proper_iff (t : List (Step T K V)) (r : Outcome Exn (State T K V))
    (hr : (iterators P n).run t = some r) (hb : NoOverflow P n t) : ProperRun P n t ↔ SafeRun P n t := by
  constructor
  · exact fun h u w call s hua hu => (iterators_proper_iff_safe P n hr hb hua hu).1 (h u w call s hua hu)
  · exact fun h u w call s hua hu => (iterators_proper_iff_safe P n hr hb hua hu).2 (h u w call s hua hu)

end Programs

def unknownObject : RefCount.Implementation := ⟨[Guid.unknownObject], List.cons_ne_nil _ _⟩

/-- A vector of one element, and its iterator. -/
def vectorAndIterator : List (Step ℕ ℕ ℕ) := [.makeParamVector 0 unknownObject [7], .getIterator 1 0 unknownObject]

/-- A hash map of one element, and its iterator. -/
def hashMapAndIterator : List (Step ℕ ℕ ℕ) :=
  [.makeParamHashMap 0 unknownObject, .addOrUpdate 0 5 7 (.inPlace 0) .granted, .getIterator 1 0 unknownObject]

theorem iterators_proper_iff_run :
    ∃ s, (iterators Primitives.slot 2).run (vectorAndIterator ++ [.iterator 1 .current, .iterator 1 .moveToNext]) =
        some (.ok s) ∧ s.content? 1 = some (.vectorIterator 0 1) ∧
      (ProperRun Primitives.slot 2 (vectorAndIterator ++ [.iterator 1 .current, .iterator 1 .moveToNext]) ↔
        SafeRun Primitives.slot 2 (vectorAndIterator ++ [.iterator 1 .current, .iterator 1 .moveToNext])) :=
  ⟨_, rfl, rfl, iterators_proper_iff Primitives.slot 2 _ _ rfl (noOverflow_of_short _ _ (by decide))⟩

/-- The handle of the container is destroyed, its elements go, or the iterator goes on after the last one. -/
theorem not_properRun :
    ¬ ProperRun Primitives.slot 2 (vectorAndIterator ++ [.handles (.destruct 0)] ++ [.iterator 1 .valid]) ∧
      ¬ ProperRun Primitives.slot 2 (vectorAndIterator ++ [.vector 0 .clear] ++ [.iterator 1 .current]) ∧
      ¬ ProperRun Primitives.slot 2 (hashMapAndIterator ++ [.remove 0 5] ++ [.iterator 1 .current]) ∧
      ¬ ProperRun Primitives.slot 2 (hashMapAndIterator ++ [.iterator 1 .moveToNext] ++ [.iterator 1 .moveToNext]) := by
  refine ⟨fun h => ?_, fun h => ?_, fun h => ?_, fun h => ?_⟩
  · exact not_proper_of_undefined rfl (h _ 1 .valid _ (List.prefix_refl _) rfl)
  · exact not_proper_of_undefined rfl (h _ 1 .current _ (List.prefix_refl _) rfl)
  · exact not_proper_of_undefined rfl (h _ 1 .current _ (List.prefix_refl _) rfl)
  · exact not_proper_of_undefined rfl (h _ 1 .moveToNext _ (List.prefix_refl _) rfl)

end Nessus.Abi.Iterators
