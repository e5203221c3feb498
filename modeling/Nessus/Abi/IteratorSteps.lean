import Nessus.Abi.Iterators

/-!
# The operations of programs with iterators

* `State.Performs`, `step_cases` — what an operation can do;
* `step_counts`, `step_size`, `step_kinded` — **every operation** keeps the counts right, makes at most one reference,
  and leaves iterators with containers of their kind;
* `iterators_counted`, `iterators_progress` — **after every program** the counts are right, and a call of an iterator comes to
  something.
-/

namespace Nessus.Abi.Iterators

open Nessus.Lib Nessus.Abi.ParamVector

variable {τ T K V : Type}

/-! ## Objects -/

section Objects

variable {s : State T K V} {o w : ℕ}

theorem deref_eq_ok_iff : (∃ obj, s.handles.heap.deref o = .ok obj) ↔ s.Alive o := by
  unfold RefCount.Heap.deref State.Alive
  constructor
  · rintro ⟨obj, hobj⟩
    split at hobj
    · next x hx =>
      split at hobj
      · next halive => exact ⟨x, hx, halive⟩
      · cases hobj
    · cases hobj
  · rintro ⟨obj, hobj, halive⟩
    exact ⟨obj, by simp only [hobj, halive, if_true]⟩

/-- An object is alive exactly as long as there is a reference to it. -/
theorem alive_iff (hc : RefCount.Counted s.handles.heap s.handles.refs) : s.Alive o ↔ 0 < s.handles.refs o := by
  constructor
  · rintro ⟨obj, hobj, halive⟩
    exact (hc.alive_iff o obj hobj).1 halive
  · intro hpos
    obtain ⟨obj, hobj, halive, -⟩ := hc.deref hpos
    exact ⟨obj, hobj, halive⟩

/-- `c` is in the object `o`, which is the one behind `w`. -/
structure State.Behind (s : State T K V) (w o : ℕ) (c : Content T K V) : Prop where
  content? : s.content? w = some c
  contents : s.contents o = some c

theorem State.content?_eq_some {c : Content T K V} :
    s.content? w = some c ↔ ∃ abi, s.handles.handle? w = some (some abi) ∧ s.contents abi.object = some c := by
  rw [State.content?]
  cases s.handles.handle? w with
  | none => simp
  | some h => cases h <;> simp

theorem State.access_of_not_alive (hdead : ¬ s.Alive o)
    (f : Content T K V → Option (Outcome Exn (Reply T K V × State T K V))) : s.access o f = some .undefined := by
  rw [State.access]
  split
  · next obj hobj => exact absurd (deref_eq_ok_iff.1 ⟨obj, hobj⟩) hdead
  · rfl

theorem State.access_of_alive (halive : s.Alive o) (f : Content T K V → Option (Outcome Exn (Reply T K V × State T K V))) :
    s.access o f = (s.contents o).bind f := by
  obtain ⟨obj, hobj⟩ := deref_eq_ok_iff.2 halive
  rw [State.access, hobj]

theorem State.access_cases {f : Content T K V → Option (Outcome Exn (Reply T K V × State T K V))}
    {r : Outcome Exn (Reply T K V × State T K V)} (hs : s.access o f = some r) :
    (¬ s.Alive o ∧ r = .undefined) ∨ s.Alive o ∧ ∃ c, s.contents o = some c ∧ f c = some r := by
  by_cases halive : s.Alive o
  · rw [State.access_of_alive halive] at hs
    exact .inr ⟨halive, Option.bind_eq_some_iff.1 hs⟩
  · rw [State.access_of_not_alive halive] at hs
    cases hs
    exact .inl ⟨halive, rfl⟩

end Objects

theorem HashMap.addOrUpdate_ended [BEq K] {m : HashMap K V} {key : K} {value : V} {insertion : Insertion}
    {allocation : Allocation} {x : Outcome Exn (HashMap K V)}
    (h : m.addOrUpdate key value insertion allocation = some x) : (∃ e, x = .thrown e) ∨ ∃ m', x = .ok m' := by
  rw [HashMap.addOrUpdate] at h
  split at h
  · cases h
    exact .inr ⟨_, rfl⟩
  · obtain ⟨m', -, rfl⟩ := Option.map_eq_some_iff.1 h
    cases allocation with
    | granted => exact .inr ⟨m', rfl⟩
    | _ => exact .inl ⟨_, rfl⟩

/-! ## What an operation can do -/

/-- What the iterators of an object take it for. -/
inductive Kind where
  | vector
  | hashMap
  | iterator (impl : ℕ) (container : Kind)

def Content.kind : Content T K V → Kind
  | vector _ => .vector
  | hashMap _ => .hashMap
  | vectorIterator impl _ => .iterator impl .vector
  | mapIterator impl _ => .iterator impl .hashMap

def State.kind? (s : State T K V) (o : ℕ) : Option Kind := (s.contents o).map Content.kind

/-- The container of an iterator is one of its kind. -/
def State.Fits (s : State T K V) (k : Kind) : Prop := ∀ impl container, k = .iterator impl container →
  s.kind? impl = some container

/-- Neither a vector's operation nor an iterator's. -/
def Step.Plain : Step T K V → Prop
  | vector .. => False
  | iterator .. => False
  | _ => True

inductive State.Performs [BEq T] [Inhabited T] (P : Primitives τ) (s : State T K V) :
    Step T K V → Outcome Exn (Reply T K V × State T K V) → Prop where
  /-- The handle is null. -/
  | null {a : Step T K V} {e : Exn} (hsafe : s.Safe a) : s.Performs P a (.thrown e)
  /-- The object behind the handle has been destroyed. -/
  | dangling {a : Step T K V} {o : ℕ} (hheld : 0 < s.handles.refs o) (hdead : ¬ s.Alive o) : s.Performs P a .undefined
  | handles {op : RefCount.Op} {r : Outcome Exn (Reply T K V × State T K V)} (hx : s.exec op = some r) :
    s.Performs P (.handles op) r
  | make {a : Step T K V} {v : ℕ} {implementation : RefCount.Implementation} {c : Content T K V}
    {r : Outcome Exn (Reply T K V × State T K V)} (ha : a.Plain) (hfits : s.Fits c.kind)
    (hx : s.make v implementation c = some r) : s.Performs P a r
  | vector {w o : ℕ} {op : VectorOp T} {buffer : List T} (hw : s.Behind w o (.vector buffer)) :
    s.Performs P (.vector w op) (op.run P buffer >>= fun p => .ok (.nothing, s.store o (.vector p.2)))
  | hashMap {a : Step T K V} {w o : ℕ} {m : HashMap K V} {x : Outcome Exn (HashMap K V)} (ha : a.Plain)
    (hw : s.Behind w o (.hashMap m)) (hx : (∃ e, x = .thrown e) ∨ ∃ m', x = .ok m') :
    s.Performs P a (x >>= fun m' => .ok (.nothing, s.store o (.hashMap m')))
  | vectorIterator {w o impl : ℕ} {index : UInt64} {buffer : List T} {call : IteratorCall}
    (hw : s.Behind w o (.vectorIterator impl index)) (halive : s.Alive impl)
    (hbuffer : s.contents impl = some (.vector buffer)) :
    s.Performs P (.iterator w call)
      (vectorIteratorCall buffer index call >>= fun p => .ok (p.1, s.store o (.vectorIterator impl p.2)))
  | mapIterator {w o impl : ℕ} {iter : MapIterator} {m : HashMap K V} {call : IteratorCall}
    (hw : s.Behind w o (.mapIterator impl iter)) (halive : s.Alive impl) (hm : s.contents impl = some (.hashMap m)) :
    s.Performs P (.iterator w call)
      (mapIteratorCall m iter call >>= fun p => .ok (p.1, s.store o (.mapIterator impl p.2)))
  /-- The container of the iterator has been destroyed. -/
  | gone {w o impl : ℕ} {c : Content T K V} {call : IteratorCall} (hw : s.Behind w o c) (himpl : c.impl? = some impl)
    (hdead : ¬ s.Alive impl) : s.Performs P (.iterator w call) .undefined

section Step

variable [BEq T] [Inhabited T] {P : Primitives τ} {s : State T K V} {a : Step T K V}
  {r : Outcome Exn (Reply T K V × State T K V)}

theorem performs_method {w : ℕ} {f : ℕ → Content T K V → Option (Outcome Exn (Reply T K V × State T K V))}
    (hs : s.method P w f = some r) (hnull : s.content? w = none → s.Safe a)
    (hf : ∀ o c, s.Behind w o c → f o c = some r → s.Performs P a r) : s.Performs P a r := by
  obtain ⟨h, hw, hs⟩ := Option.bind_eq_some_iff.1 hs
  cases h with
  | none =>
    cases hs
    exact .null (hnull (by rw [State.content?, hw]; rfl))
  | some abi =>
    have haccess : s.access abi.object (f abi.object) = some r := hs
    rcases State.access_cases haccess with ⟨hdead, rfl⟩ | ⟨-, c, hcontents, hcall⟩
    · exact .dangling (RefCount.State.held_of_handle? hw abi rfl) hdead
    · exact hf abi.object c ⟨by rw [State.content?, hw]; exact hcontents, hcontents⟩ hcall

/-- **What an operation can do.** -/
theorem step_cases [BEq K] (hs : s.step P a = some r) : s.Performs P a r := by
  cases a with
  | handles op =>
    cases op with
    | make => cases hs
    | _ => exact .handles hs
  | makeParamVector v implementation buffer => exact .make trivial (by intro _ _ h; cases h) hs
  | makeParamHashMap v implementation => exact .make trivial (by intro _ _ h; cases h) hs
  | getIterator v w implementation =>
    rw [State.step] at hs
    refine performs_method hs (fun _ => trivial) fun o c hw hf => ?_
    cases c with
    | vector buffer =>
      refine .make trivial ?_ hf
      rintro _ _ ⟨⟩
      rw [State.kind?, hw.contents]
      rfl
    | hashMap m =>
      refine .make trivial ?_ hf
      rintro _ _ ⟨⟩
      rw [State.kind?, hw.contents]
      rfl
    | _ => cases hf
  | vector w op =>
    rw [State.step] at hs
    refine performs_method hs (fun hnull buffer hbuffer => ?_) fun o c hw hf => ?_
    · rw [hnull] at hbuffer
      cases hbuffer
    · cases c with
      | vector buffer =>
        cases hf
        exact .vector hw
      | _ => cases hf
  | addOrUpdate w key value insertion allocation =>
    rw [State.step] at hs
    refine performs_method hs (fun _ => trivial) fun o c hw hf => ?_
    cases c with
    | hashMap m =>
      obtain ⟨x, hx, rfl⟩ := Option.map_eq_some_iff.1 hf
      exact .hashMap trivial hw (HashMap.addOrUpdate_ended hx)
    | _ => cases hf
  | remove w key =>
    rw [State.step] at hs
    refine performs_method hs (fun _ => trivial) fun o c hw hf => ?_
    cases c with
    | hashMap m =>
      cases hf
      exact .hashMap (x := .ok (m.remove key)) trivial hw (.inr ⟨_, rfl⟩)
    | _ => cases hf
  | clearMap w =>
    rw [State.step] at hs
    refine performs_method hs (fun _ => trivial) fun o c hw hf => ?_
    cases c with
    | hashMap m =>
      cases hf
      exact .hashMap (x := .ok m.clear) trivial hw (.inr ⟨_, rfl⟩)
    | _ => cases hf
  | iterator w call =>
    rw [State.step] at hs
    refine performs_method hs (fun hnull c hcontent => ?_) fun o c hw hf => ?_
    · rw [hnull] at hcontent
      cases hcontent
    · cases c with
      | vectorIterator impl index =>
        rcases State.access_cases hf with ⟨hdead, rfl⟩ | ⟨halive, container, hcontainer, hcall⟩
        · exact .gone hw rfl hdead
        · cases container with
          | vector buffer =>
            cases hcall
            exact .vectorIterator hw halive hcontainer
          | _ => cases hcall
      | mapIterator impl iter =>
        rcases State.access_cases hf with ⟨hdead, rfl⟩ | ⟨halive, container, hcontainer, hcall⟩
        · exact .gone hw rfl hdead
        · cases container with
          | hashMap m =>
            cases hcall
            exact .mapIterator hw halive hcontainer
          | _ => cases hcall
      | _ => cases hf

end Step

/-! ## Handles and members -/

section Members

variable {s : State T K V} {r : Outcome Exn (Reply T K V × State T K V)}

/-- The operation comes to something, with undefined behaviour or termination left out. -/
def Ended (r : Outcome Exn (Reply T K V × State T K V)) : Prop := (∃ e, r = .thrown e) ∨ ∃ p, r = .ok p

/-- The counts are right after the operation, unless one overflows. -/
def Counts (r : Outcome Exn (Reply T K V × State T K V)) : Prop :=
  ∀ reply s', r = .ok (reply, s') → s'.handles.Bounded → RefCount.Counted s'.handles.heap s'.handles.refs

/-- No count has overflowed after the operation. -/
def EndsBounded (r : Outcome Exn (Reply T K V × State T K V)) : Prop :=
  ∀ reply s', r = .ok (reply, s') → s'.handles.Bounded

theorem exec_spec (hc : RefCount.Counted s.handles.heap s.handles.refs) {op : RefCount.Op}
    (hs : s.exec op = some r) (hb : EndsBounded r) : Ended r ∧ Counts r := by
  obtain ⟨q, hq, hr⟩ := Option.map_eq_some_iff.1 hs
  have hbounded : ∀ h, q = .ok h → h.Bounded := by
    rintro h rfl
    exact hb _ _ hr.symm
  obtain ⟨h, rfl, hcounted⟩ := RefCount.exec_counted hc hq hbounded
  subst hr
  refine ⟨.inr ⟨_, rfl⟩, fun reply s' hok _ => ?_⟩
  cases hok
  exact hcounted

theorem make_spec (hc : RefCount.Counted s.handles.heap s.handles.refs) {v : ℕ}
    {implementation : RefCount.Implementation} {c : Content T K V} (hs : s.make v implementation c = some r)
    (hb : EndsBounded r) : Ended r ∧ Counts r := by
  obtain ⟨q, hq, rfl⟩ := Option.map_eq_some_iff.1 hs
  have hbounded : EndsBounded q := by
    rintro reply s' rfl
    exact hb reply (s'.store _ c) rfl
  obtain ⟨hended, hcounts⟩ := exec_spec hc hq hbounded
  rcases hended with ⟨e, rfl⟩ | ⟨⟨reply, s'⟩, rfl⟩
  · exact ⟨.inl ⟨e, rfl⟩, fun reply s' hok => by cases hok⟩
  · refine ⟨.inr ⟨_, rfl⟩, fun reply' s'' hok => ?_⟩
    cases hok
    exact hcounts reply s' rfl

theorem handles_store {β : Type} {x : Outcome Exn β} {o : ℕ} {g : β → Reply T K V} {f : β → Content T K V}
    {reply : Reply T K V} {s' : State T K V} (h : (x >>= fun b => .ok (g b, s.store o (f b))) = .ok (reply, s')) :
    s'.handles = s.handles := by
  obtain ⟨b, -, hb⟩ := Outcome.bind_eq_ok.1 h
  cases hb
  rfl

theorem counts_store (hc : RefCount.Counted s.handles.heap s.handles.refs) {β : Type} {x : Outcome Exn β} {o : ℕ}
    {g : β → Reply T K V} {f : β → Content T K V} : Counts (x >>= fun b => .ok (g b, s.store o (f b))) := by
  intro reply s' hok _
  rw [handles_store hok]
  exact hc

theorem exec_size {op : RefCount.Op} {reply : Reply T K V} {s' : State T K V}
    (hs : s.exec op = some (.ok (reply, s'))) :
    s'.handles.vars.length = s.handles.vars.length ∧ s'.handles.size ≤ s.handles.size + 1 := by
  obtain ⟨q, hq, hr⟩ := Option.map_eq_some_iff.1 hs
  cases q with
  | ok handles =>
    cases hr
    exact RefCount.exec_size hq
  | error fault => cases fault <;> cases hr

/-- Nothing is in an object before it is made, and iterators fit their containers. -/
structure State.Kinded (s : State T K V) : Prop where
  absent : ∀ o, s.handles.heap.objects.length ≤ o → s.contents o = none
  fits : ∀ o k, s.kind? o = some k → s.Fits k

theorem start_kinded (n : ℕ) : (State.start n : State T K V).Kinded := ⟨fun _ _ => rfl, fun _ _ h => by cases h⟩

theorem kind?_store (s : State T K V) (o : ℕ) (c : Content T K V) :
    (s.store o c).kind? = Function.update s.kind? o (some c.kind) := by
  funext o'
  by_cases ho : o' = o
  · subst ho
    simp [State.kind?, State.store]
  · simp [State.kind?, State.store, ho]

theorem State.Kinded.store (hk : s.Kinded) {o : ℕ} {c c' : Content T K V} (hc : s.contents o = some c)
    (hkind : c'.kind = c.kind) : (s.store o c').Kinded := by
  have hkinds : (s.store o c').kind? = s.kind? := by
    rw [kind?_store, Function.update_eq_self_iff, hkind, State.kind?, hc]
    rfl
  constructor
  · intro o' ho'
    have hne : o' ≠ o := by
      rintro rfl
      rw [hk.absent _ ho'] at hc
      cases hc
    simp only [State.store, Function.update_of_ne hne]
    exact hk.absent o' ho'
  · intro o' k ho' impl container hfit
    rw [hkinds] at ho' ⊢
    exact hk.fits o' k ho' impl container hfit

theorem kinded_store (hk : s.Kinded) {β : Type} {x : Outcome Exn β} {o : ℕ} {g : β → Reply T K V} {f : β → Content T K V}
    {c : Content T K V} {reply : Reply T K V} {s' : State T K V}
    (h : (x >>= fun b => .ok (g b, s.store o (f b))) = .ok (reply, s')) (hc : s.contents o = some c)
    (hkind : ∀ b, (f b).kind = c.kind) : s'.Kinded := by
  obtain ⟨b, -, hb⟩ := Outcome.bind_eq_ok.1 h
  cases hb
  exact hk.store hc (hkind b)

theorem exec_kinded (hk : s.Kinded) {op : RefCount.Op} {reply : Reply T K V} {s' : State T K V}
    (hs : s.exec op = some (.ok (reply, s'))) : s'.Kinded := by
  obtain ⟨q, hq, hr⟩ := Option.map_eq_some_iff.1 hs
  cases q with
  | ok handles =>
    cases hr
    exact ⟨fun o ho => hk.absent o (Nat.le_trans (RefCount.exec_objects hq) ho), hk.fits⟩
  | error fault => cases fault <;> cases hr

/-- What is new is no container of an iterator that was there before. -/
theorem fits_store {o : ℕ} {k : Kind} (hnew : s.contents o = none) (c : Content T K V) (hfits : s.Fits k) :
    (s.store o c).Fits k := by
  intro impl container hk
  have himpl := hfits impl container hk
  have hne : impl ≠ o := by
    rintro rfl
    rw [State.kind?, hnew] at himpl
    cases himpl
  rw [kind?_store, Function.update_of_ne hne]
  exact himpl

theorem make_kinded (hk : s.Kinded) {v : ℕ} {implementation : RefCount.Implementation} {c : Content T K V}
    (hfits : s.Fits c.kind) {reply : Reply T K V} {s' : State T K V}
    (hs : s.make v implementation c = some (.ok (reply, s'))) : s'.Kinded := by
  obtain ⟨q, hq, hr⟩ := Option.map_eq_some_iff.1 hs
  obtain ⟨⟨reply', s₁⟩, rfl, hs'⟩ := Outcome.bind_eq_ok.1 hr
  cases hs'
  simp only [State.exec, RefCount.exec, Option.map_eq_some_iff, Option.ite_none_right_eq_some] at hq
  obtain ⟨_, ⟨-, ⟨⟩⟩, ⟨⟩⟩ := hq
  have hnew := hk.absent _ (Nat.le_refl s.handles.heap.objects.length)
  constructor
  · intro o ho
    have hlt : s.handles.heap.objects.length + 1 ≤ o := by
      simpa [State.store, RefCount.State.put, RefCount.Heap.create] using ho
    simp only [State.store, Function.update_of_ne (Nat.ne_of_gt hlt)]
    exact hk.absent o (Nat.le_of_succ_le hlt)
  · intro o k ho
    refine fits_store (s := s) hnew c ?_
    by_cases hne : o = s.handles.heap.objects.length
    · subst hne
      have hkind : some c.kind = some k := by
        rw [← ho, kind?_store, Function.update_self]
      cases hkind
      exact hfits
    · rw [kind?_store, Function.update_of_ne hne] at ho
      exact hk.fits o k ho

end Members

/-! ## One operation -/

section Step

variable [BEq T] [Inhabited T] [BEq K] {P : Primitives τ} {s : State T K V} {a : Step T K V}
  {r : Outcome Exn (Reply T K V × State T K V)}

/-- **Every operation keeps the counts right**, unless one overflows. -/
theorem step_counts (hc : RefCount.Counted s.handles.heap s.handles.refs) (hs : s.step P a = some r)
    (hb : EndsBounded r) : Counts r := by
  cases step_cases hs with
  | null => exact fun _ _ h => by cases h
  | dangling => exact fun _ _ h => by cases h
  | gone => exact fun _ _ h => by cases h
  | handles hx => exact (exec_spec hc hx hb).2
  | make ha hfits hx => exact (make_spec hc hx hb).2
  | vector hw => exact counts_store hc
  | hashMap ha hw hx => exact counts_store hc
  | vectorIterator hw halive hbuffer => exact counts_store hc
  | mapIterator hw halive hm => exact counts_store hc

theorem step_size {reply : Reply T K V} {s' : State T K V} (hs : s.step P a = some (.ok (reply, s'))) :
    s'.handles.vars.length = s.handles.vars.length ∧ s'.handles.size ≤ s.handles.size + 1 := by
  generalize hr : Outcome.ok (reply, s') = r at hs
  cases step_cases hs with
  | null => cases hr
  | dangling => cases hr
  | gone => cases hr
  | handles hx =>
    subst hr
    exact exec_size hx
  | make ha hfits hx =>
    subst hr
    obtain ⟨q, hq, hr⟩ := Option.map_eq_some_iff.1 hx
    obtain ⟨⟨reply', s₁⟩, rfl, hs'⟩ := Outcome.bind_eq_ok.1 hr
    cases hs'
    have hsize := exec_size hq
    exact hsize
  | vector hw => simp [handles_store hr.symm]
  | hashMap ha hw hx => simp [handles_store (g := fun _ => .nothing) hr.symm]
  | vectorIterator hw halive hbuffer => simp [handles_store hr.symm]
  | mapIterator hw halive hm => simp [handles_store hr.symm]

/-- **Every operation leaves iterators with containers of their kind.** -/
theorem step_kinded (hk : s.Kinded) {reply : Reply T K V} {s' : State T K V}
    (hs : s.step P a = some (.ok (reply, s'))) : s'.Kinded := by
  generalize hr : Outcome.ok (reply, s') = r at hs
  cases step_cases hs with
  | null => cases hr
  | dangling => cases hr
  | gone => cases hr
  | handles hx =>
    subst hr
    exact exec_kinded hk hx
  | make ha hfits hx =>
    subst hr
    exact make_kinded hk hfits hx
  | vector hw => exact kinded_store hk hr.symm hw.contents fun _ => rfl
  | hashMap ha hw hx => exact kinded_store (g := fun _ => .nothing) hk hr.symm hw.contents fun _ => rfl
  | vectorIterator hw halive hbuffer => exact kinded_store hk hr.symm hw.contents fun _ => rfl
  | mapIterator hw halive hm => exact kinded_store hk hr.symm hw.contents fun _ => rfl

/-- The container is there, and of the kind that the iterator takes it for. -/
theorem exists_iterator_step (hk : s.Kinded) {w impl : ℕ} {c : Content T K V} (call : IteratorCall)
    (hcontent : s.content? w = some c) (himpl : c.impl? = some impl) : ∃ r, s.step P (.iterator w call) = some r := by
  obtain ⟨abi, hw, hcontents⟩ := State.content?_eq_some.1 hcontent
  have hfits := hk.fits abi.object c.kind (by rw [State.kind?, hcontents]; rfl)
  simp only [State.step, State.method, hw, Option.bind_some]
  by_cases hself : s.Alive abi.object
  · rw [State.access_of_alive hself, hcontents, Option.bind_some]
    cases c with
    | vector buffer => cases himpl
    | hashMap m => cases himpl
    | vectorIterator impl index =>
      obtain ⟨container, hcontainer, hkind⟩ := Option.map_eq_some_iff.1 (hfits impl .vector rfl)
      by_cases halive : s.Alive impl
      · simp only [State.access_of_alive halive, hcontainer, Option.bind_some]
        cases container with
        | vector buffer => exact ⟨_, rfl⟩
        | _ => cases hkind
      · exact ⟨_, State.access_of_not_alive halive _⟩
    | mapIterator impl iter =>
      obtain ⟨container, hcontainer, hkind⟩ := Option.map_eq_some_iff.1 (hfits impl .hashMap rfl)
      by_cases halive : s.Alive impl
      · simp only [State.access_of_alive halive, hcontainer, Option.bind_some]
        cases container with
        | hashMap m => exact ⟨_, rfl⟩
        | _ => cases hkind
      · exact ⟨_, State.access_of_not_alive halive _⟩
  · exact ⟨_, State.access_of_not_alive hself _⟩

end Step

/-! ## Programs -/

section Programs

variable [BEq T] [Inhabited T] [BEq K] (P : Primitives τ) (n : ℕ)

/-- A program goes on after a value or an exception. -/
theorem iterators_step_ok {r : Outcome Exn (State T K V)} {a : Step T K V} {s' : State T K V}
    (h : (iterators P n).step r a = some (.ok s')) :
    ∃ s, r = .ok s ∧ ((∃ reply, s.step P a = some (.ok (reply, s'))) ∨ s' = s ∧ ∃ e, s.step P a = some (.thrown e)) := by
  cases r with
  | ok s =>
    obtain ⟨q, hq, hr⟩ := Option.map_eq_some_iff.1 h
    refine ⟨s, rfl, ?_⟩
    cases q with
    | ok p =>
      cases hr
      exact .inl ⟨p.1, hq⟩
    | thrown e =>
      cases hr
      exact .inr ⟨rfl, e, hq⟩
    | terminated => cases hr
    | undefined => cases hr
  | _ => cases h

/-- As long as no count overflows, the counts are right. -/
theorem iterators_counted {t : List (Step T K V)} (hb : NoOverflow P n t) :
    ∀ u s, u <+: t → (iterators P n).run u = some (.ok s) → RefCount.Counted s.handles.heap s.handles.refs := by
  have hrun : ∀ u r, u <+: t → (iterators P n).run u = some r →
      ∀ s : State T K V, r = .ok s → RefCount.Counted s.handles.heap s.handles.refs := by
    refine Machine.invariant_of (fun u a h => (List.prefix_append u [a]).trans h) ?_ ?_
    · intro s hs
      cases hs
      exact RefCount.start_counted n
    · intro u r a r' hu ha hinv hstep s' hs'
      subst hs'
      have hbounded : s'.handles.Bounded := hb _ s' ha ((iterators P n).run_concat_eq_some.2 ⟨r, hu, hstep⟩)
      obtain ⟨s, rfl, hcases⟩ := iterators_step_ok P n hstep
      rcases hcases with ⟨reply, hs⟩ | ⟨rfl, -⟩
      · exact step_counts (hinv s rfl) hs (fun _ _ h => by cases h; exact hbounded) _ _ rfl hbounded
      · exact hinv _ rfl
  exact fun u s hu hs => hrun u _ hu hs s rfl

theorem iterators_kinded (t : List (Step T K V)) (s : State T K V) (hs : (iterators P n).run t = some (.ok s)) :
    s.Kinded := by
  refine Machine.invariant (I := fun _ r => ∀ s : State T K V, r = .ok s → s.Kinded) ?_ ?_ t _ hs s rfl
  · intro s hs
    cases hs
    exact start_kinded n
  · intro u r a r' _ hinv hstep s' hs'
    subst hs'
    obtain ⟨s, rfl, hcases⟩ := iterators_step_ok P n hstep
    rcases hcases with ⟨reply, hs⟩ | ⟨rfl, -⟩
    · exact step_kinded (hinv s rfl) hs
    · exact hinv _ rfl

/-- **After any operations, a call of an iterator comes to something**: no object has been made that its methods do not fit. -/
theorem iterators_progress (t : List (Step T K V)) (s : State T K V) (hs : (iterators P n).run t = some (.ok s)) {w impl : ℕ}
    {c : Content T K V} (call : IteratorCall) (hcontent : s.content? w = some c) (himpl : c.impl? = some impl) :
    ∃ r, s.step P (.iterator w call) = some r :=
  exists_iterator_step (iterators_kinded P n t s hs) call hcontent himpl

/-- **In short programs no count overflows.** -/
theorem noOverflow_of_short {t : List (Step T K V)} (h : n + t.length < 2 ^ 32) : NoOverflow P n t := by
  have hrun : ∀ u r, (iterators P n).run u = some r → ∀ s : State T K V, r = .ok s →
      s.handles.vars.length = n ∧ s.handles.size ≤ u.length := by
    refine Machine.invariant ?_ ?_
    · intro s hs
      cases hs
      simp [State.start, RefCount.State.start, RefCount.State.size]
    · intro u r a r' _ hinv hstep s' hs'
      subst hs'
      obtain ⟨s, rfl, hcases⟩ := iterators_step_ok P n hstep
      have hsize := hinv s rfl
      rw [List.length_append, List.length_singleton]
      rcases hcases with ⟨reply, hs⟩ | ⟨rfl, -⟩
      · have hstepSize := step_size hs
        omega
      · omega
  rintro u s ⟨v, rfl⟩ hu
  have hsize := hrun u _ hu s rfl
  rw [List.length_append] at h
  exact RefCount.State.bounded_of_size (by omega)

end Programs

end Nessus.Abi.Iterators
