import Nessus.Lib.Loop
import Nessus.Abi.Iterators

/-!
# Loops over vectors and hash maps

`for (auto iter = begin(obj); iter != end(obj); ++iter)`: the end is a null handle, which `begin` and `operator++` make
of what `valid` and `move_to_next` of the implementation say.

* `Iterable`, `callIterator` — the implementations, and the calls of their iterators through the adapter;
* `begin`, `increment`, `forEach` — the functions of `iterable_object.hpp`, and the loop;
* `Iterable.Left` — the elements that are left for an iterator;
* `forEach_visits` — **a loop over a vector or a hash map** ends, and is a `for` over its elements.
-/

namespace Nessus.Abi.Iterators

open Nessus.Lib Nessus.Abi.ParamVector

variable {τ T K V Q : Type}

/-! ## The two sides -/

/-- An implementation of `iterable_object`, whose iterators are positions of the type `Q`. -/
structure Iterable (T K V Q : Type) where
  /-- `object_iterator_impl(impl)`. -/
  start : Q
  call : Q → IteratorCall → Outcome Exn (Reply T K V × Q)

variable (T K V) in
def vectorIterable (buffer : List T) : Iterable T K V UInt64 := ⟨0, vectorIteratorCall buffer⟩

variable (T) in
def mapIterable (m : HashMap K V) : Iterable T K V MapIterator := ⟨.begin m, mapIteratorCall m⟩

/-- The loop's iterator, which is null at the end, and the rest of the program.  `log` is what has been called so far,
and the iterator at the time. -/
structure LoopState (τ Q : Type) where
  rest : τ
  iter : Option Q
  log : List (IteratorCall × Option Q)

def inLoop (P : Primitives τ) : Primitives (LoopState τ Q) :=
  P.through LoopState.rest (fun t s => { s with rest := t }) fun _ _ => rfl

/-- What `bool result` is. -/
def Reply.isTrue : Reply T K V → Bool
  | flag b => b
  | _ => false

section Adapter

variable (P : Primitives τ) (c : Iterable T K V Q)

/-- The body of a function in the table of an iterator. -/
def Iterable.body (q : Q) (call : IteratorCall) : Eff (LoopState τ Q) Exn (Reply T K V) := fun s =>
  match c.call q call with
  | .ok (reply, q') => ({ s with iter := some q' }, .ok reply)
  | .thrown e => (s, .thrown e)
  | .terminated => (s, .terminated)
  | .undefined => (s, .undefined)

/-- A call through the adapter of `object_iterator`. -/
def callIterator (call : IteratorCall) : Eff (LoopState τ Q) Exn (Reply T K V) := fun s =>
  let s' := { s with log := s.log ++ [(call, s.iter)] }
  match s.iter with
  | some q => abiCallOut (inLoop P) .nothing (c.body q call) s'
  | none => (s', .thrown (.abi (.of .nullPointer (P.createAbiExceptionMessage errorNullPointer none))))

/-- `get_iterator` of the adapter. -/
def getIterator : Eff (LoopState τ Q) Exn Unit :=
  abiCallOut (inLoop P) () (Eff.modify fun s => { s with iter := some c.start })

/-- `iter = nullptr`. -/
def assignNull : Eff (LoopState τ Q) Exn Unit := Eff.modify fun s => { s with iter := none }

/-- `begin`, which is `noexcept`. -/
def begin : Eff (LoopState τ Q) Exn Unit := fun s =>
  match (getIterator P c >>= fun _ => callIterator P c .valid >>= fun reply =>
    if reply.isTrue then pure () else assignNull) s with
  | (s', .thrown _) => (s', .terminated)
  | r => r

/-- `operator++`. -/
def increment : Eff (LoopState τ Q) Exn Unit :=
  callIterator P c .moveToNext >>= fun reply => if reply.isTrue then pure () else assignNull

/-- A statement about the rest of the program. -/
def outside (x : Eff τ Exn Unit) : Eff (LoopState τ Q) Exn Unit := fun s =>
  ({ s with rest := (x s.rest).1 }, (x s.rest).2)

def round (body : Reply T K V → Eff τ Exn Unit) : Eff (LoopState τ Q) Exn Unit :=
  callIterator P c .current >>= fun reply => outside (body reply) >>= fun _ => increment P c

/-- The loop, from before `begin` on, with at most `fuel` tests of `iter != end(obj)`. -/
def forEach (body : Reply T K V → Eff τ Exn Unit) (fuel : ℕ) (rest : τ) : Option (LoopState τ Q × Outcome Exn Unit) :=
  match begin P c ⟨rest, none, []⟩ with
  | (s, .ok _) => Eff.whileLoop (fun s => s.iter.isSome) (round P c body) fuel s
  | r => some r

end Adapter

/-! ## What the loop is to do -/

/-- An iterator that is neither null nor exhausted, as `valid` says. -/
def Iterable.Unexhausted (c : Iterable T K V Q) (iter : Option Q) : Prop :=
  ∃ q q', iter = some q ∧ c.call q .valid = .ok (.flag true, q')

/-- **The loop is a `for` over the elements**, whatever its body does; it comes to an end, and calls `current` and
`move_to_next` of no iterator that is null or exhausted. -/
def Iterable.Visits (P : Primitives τ) (c : Iterable T K V Q) (elements : List (Reply T K V)) : Prop :=
  ∀ (body : Reply T K V → Eff τ Exn Unit) (rest : τ) (fuel : ℕ), elements.length < fuel →
    ∃ s r, forEach P c body fuel rest = some (s, r) ∧ forM elements body rest = (s.rest, r) ∧
      ∀ call iter, (call, iter) ∈ s.log → call ≠ .valid → c.Unexhausted iter

/-- A hash map as its operations have made it. -/
inductive HashMap.Made [BEq K] : HashMap K V → Prop where
  | new : Made .new
  | addOrUpdate {m m' : HashMap K V} {key : K} {value : V} {insertion : Insertion} {allocation : Allocation} (h : m.Made)
    (hm : m.addOrUpdate key value insertion allocation = some (.ok m')) : Made m'
  | remove {m : HashMap K V} (key : K) (h : m.Made) : Made (m.remove key)
  | clear {m : HashMap K V} (h : m.Made) : Made m.clear

/-! ## The loop -/

/-- The elements that are left for an iterator. -/
inductive Iterable.Left (c : Iterable T K V Q) : Q → List (Reply T K V) → Prop where
  | exhausted {q : Q} (h : c.call q .valid = .ok (.flag false, q)) : c.Left q []
  | next {q q' : Q} {e : Reply T K V} {l : List (Reply T K V)} (hvalid : c.call q .valid = .ok (.flag true, q))
    (hcurrent : c.call q .current = .ok (e, q)) (hnext : c.call q .moveToNext = .ok (.flag (!l.isEmpty), q'))
    (hl : c.Left q' l) : c.Left q (e :: l)

theorem Iterable.Left.valid {c : Iterable T K V Q} {q : Q} {l : List (Reply T K V)} (h : c.Left q l) :
    c.call q .valid = .ok (.flag (!l.isEmpty), q) := by
  cases h with
  | exhausted h => exact h
  | next hvalid => exact hvalid

section Loop

variable {P : Primitives τ} {c : Iterable T K V Q} {s : LoopState τ Q} {q q' : Q} {l : List (Reply T K V)}
  {body : Reply T K V → Eff τ Exn Unit}

theorem callIterator_ok {call : IteratorCall} {reply : Reply T K V} (hs : s.iter = some q)
    (h : c.call q call = .ok (reply, q')) :
    callIterator P c call s = ({ s with iter := some q', log := s.log ++ [(call, some q)] }, .ok reply) := by
  rw [callIterator, hs]
  refine callOut_ok ?_
  rw [Iterable.body, h]

/-- The calls so far had an iterator for what they asked. -/
def LogOk (c : Iterable T K V Q) (s : LoopState τ Q) : Prop :=
  ∀ call iter, (call, iter) ∈ s.log → call ≠ .valid → c.Unexhausted iter

/-- The elements that are left for the loop; at the end the iterator is null. -/
def LeftInLoop (c : Iterable T K V Q) (s : LoopState τ Q) (l : List (Reply T K V)) : Prop :=
  LogOk c s ∧ ((l = [] ∧ s.iter = none) ∨ l ≠ [] ∧ ∃ q, s.iter = some q ∧ c.Left q l)

/-- What `begin` and `operator++` make of the answer of the implementation. -/
theorem leftInLoop_of_answer (hlog : LogOk c s) (hs : s.iter = some q) (hl : c.Left q l) :
    ∃ s', (if (Reply.flag (!l.isEmpty) : Reply T K V).isTrue then pure () else assignNull : Eff (LoopState τ Q) Exn Unit) s =
      (s', .ok ()) ∧ s'.rest = s.rest ∧ LeftInLoop c s' l := by
  cases l with
  | nil => exact ⟨_, rfl, rfl, hlog, .inl ⟨rfl, rfl⟩⟩
  | cons e l => exact ⟨_, rfl, rfl, hlog, .inr ⟨List.cons_ne_nil e l, q, hs, hl⟩⟩

theorem LogOk.concat (hlog : LogOk c s) {call : IteratorCall} {iter : Option Q} {s' : LoopState τ Q}
    (h : call ≠ .valid → c.Unexhausted iter) (hs' : s'.log = s.log ++ [(call, iter)]) : LogOk c s' := by
  intro call' iter' hmem hne
  rw [hs'] at hmem
  rcases List.mem_append.1 hmem with hmem | hmem
  · exact hlog call' iter' hmem hne
  · cases List.mem_singleton.1 hmem
    exact h hne

theorem begin_left (rest : τ) (hl : c.Left c.start l) :
    ∃ s, begin P c ⟨rest, none, []⟩ = (s, .ok ()) ∧ s.rest = rest ∧ LeftInLoop c s l := by
  have hget : getIterator P c ⟨rest, none, []⟩ = (⟨rest, some c.start, []⟩, .ok ()) := callOut_ok rfl
  have hvalid := callIterator_ok (P := P) (s := ⟨rest, some c.start, []⟩) rfl hl.valid
  have hlog : LogOk c (⟨rest, some c.start, [(.valid, some c.start)]⟩ : LoopState τ Q) :=
    LogOk.concat (s := ⟨rest, none, []⟩) (fun _ _ h => by cases h) (fun h => absurd rfl h) rfl
  obtain ⟨s, hs, hrest, hleft⟩ := leftInLoop_of_answer hlog rfl hl
  refine ⟨s, ?_, hrest, hleft⟩
  have hrun : (getIterator P c >>= fun _ => callIterator P c .valid >>= fun reply =>
      if reply.isTrue then pure () else assignNull) ⟨rest, none, []⟩ = (s, .ok ()) := by
    rw [Eff.bind_of_ok hget, Eff.bind_of_ok hvalid]
    exact hs
  rw [begin, hrun]

theorem increment_left {e : Reply T K V} (hlog : LogOk c s) (hs : s.iter = some q) (hl : c.Left q (e :: l)) :
    ∃ s', increment P c s = (s', .ok ()) ∧ s'.rest = s.rest ∧ LeftInLoop c s' l := by
  cases hl with
  | @next _ q' _ _ hvalid hcurrent hnext hl =>
    have hmove := callIterator_ok (P := P) hs hnext
    have hlog' : LogOk c ({ s with iter := some q', log := s.log ++ [(.moveToNext, some q)] } : LoopState τ Q) :=
      hlog.concat (fun _ => ⟨q, q, rfl, hvalid⟩) rfl
    obtain ⟨s', hs', hrest, hleft⟩ := leftInLoop_of_answer hlog' rfl hl
    refine ⟨s', ?_, hrest, hleft⟩
    rw [increment, Eff.bind_of_ok hmove]
    exact hs'

/-- **One round** is the body for the first element that is left. -/
theorem round_consumes :
    Eff.Consumes (fun s => s.iter.isSome) (round P c body) (LeftInLoop c) (LogOk c) LoopState.rest body where
  nil := by
    rintro s ⟨hlog, ⟨-, hs⟩ | ⟨hne, -⟩⟩
    · exact ⟨by rw [hs]; rfl, hlog⟩
    · exact absurd rfl hne
  cons := by
    rintro s e l ⟨hlog, ⟨hnil, -⟩ | ⟨-, q, hs, hl⟩⟩
    · cases hnil
    · obtain ⟨hvalid, hcurrent⟩ : c.call q .valid = .ok (.flag true, q) ∧ c.call q .current = .ok (e, q) := by
        cases hl with
        | next hvalid hcurrent => exact ⟨hvalid, hcurrent⟩
      have hcall := callIterator_ok (P := P) hs hcurrent
      have hlog' (t : τ) : LogOk c ⟨t, some q, s.log ++ [(.current, some q)]⟩ :=
        hlog.concat (fun _ => ⟨q, q, rfl, hvalid⟩) rfl
      refine ⟨by rw [hs]; rfl, ?_⟩
      rw [round, Eff.bind_of_ok hcall, Eff.bind_apply, outside]
      rcases body e s.rest with ⟨t, _ | _ | _ | _⟩
      · obtain ⟨s', hs', hrest, hleft⟩ := increment_left (P := P) (hlog' t) rfl hl
        simp only [hs']
        exact ⟨⟨hrest, rfl⟩, hleft.1, fun s'' h => by cases h; exact hleft⟩
      all_goals exact ⟨⟨rfl, rfl⟩, hlog' t, fun s'' h => by cases h⟩

/-- A container that has the elements left for its first iterator. -/
theorem visits_of_left (P : Primitives τ) {elements : List (Reply T K V)} (hl : c.Left c.start elements) :
    c.Visits P elements := by
  intro body rest fuel hfuel
  obtain ⟨s, hbegin, rfl, hleft⟩ := begin_left (P := P) rest hl
  obtain ⟨⟨s', r⟩, hloop, ⟨hstate, hends⟩, hlog⟩ := Eff.whileLoop_forM (round_consumes (P := P) (c := c)) hleft
  refine ⟨s', r, ?_, Prod.ext hstate.symm hends.symm, hlog⟩
  rw [forEach, hbegin]
  exact Eff.whileLoop_mono hloop hfuel

end Loop

/-! ## Vectors -/

section Vector

variable {buffer : List T} {i : ℕ}

theorem index_lt_size_iff (hsize : buffer.length < 2 ^ 64) (hi : i ≤ buffer.length) :
    UInt64.ofNat i < size buffer ↔ i < buffer.length := by
  rw [size, UInt64.lt_iff_toNat_lt, UInt64.toNat_ofNat_of_lt' (Nat.lt_of_le_of_lt hi hsize),
    UInt64.toNat_ofNat_of_lt' hsize]

theorem vector_valid (hsize : buffer.length < 2 ^ 64) (hi : i ≤ buffer.length) :
    (vectorIterable T K V buffer).call (UInt64.ofNat i) .valid =
      .ok (.flag (decide (i < buffer.length)), UInt64.ofNat i) := by
  simp only [vectorIterable, vectorIteratorCall, index_lt_size_iff hsize hi]

theorem vector_moveToNext (hsize : buffer.length < 2 ^ 64) (hlt : i < buffer.length) :
    (vectorIterable T K V buffer).call (UInt64.ofNat i) .moveToNext =
      .ok (.flag (decide (i + 1 < buffer.length)), UInt64.ofNat (i + 1)) := by
  have hnext : UInt64.ofNat i + 1 = UInt64.ofNat (i + 1) := (UInt64.ofNat_add i 1).symm
  simp only [vectorIterable, vectorIteratorCall, hnext, index_lt_size_iff hsize hlt]

/-- The iterator of a vector: the elements from its index on are left. -/
theorem vector_left (hsize : buffer.length < 2 ^ 64) (hi : i ≤ buffer.length) :
    (vectorIterable T K V buffer).Left (UInt64.ofNat i) ((buffer.drop i).map .element) := by
  have hvalid := vector_valid (K := K) (V := V) hsize hi
  induction hk : buffer.length - i generalizing i with
  | zero =>
    rw [List.drop_eq_nil_of_le (by omega)]
    rw [decide_eq_false (by omega)] at hvalid
    exact .exhausted hvalid
  | succ k ih =>
    have hlt : i < buffer.length := by omega
    rw [decide_eq_true hlt] at hvalid
    rw [List.drop_eq_getElem_cons hlt, List.map_cons]
    refine .next hvalid ?_ ?_ (ih hlt (vector_valid hsize hlt) (by omega))
    · have hitem : buffer[(UInt64.ofNat i).toNat]? = some buffer[i] := by
        rw [UInt64.toNat_ofNat_of_lt' (Nat.lt_of_le_of_lt hi hsize), List.getElem?_eq_getElem hlt]
      simp only [vectorIterable, vectorIteratorCall, atIndex, hitem, Outcome.ok_bind]
    · have hflag : decide (i + 1 < buffer.length) =
          !((buffer.drop (i + 1)).map (.element : T → Reply T K V)).isEmpty := by
        rw [Bool.eq_iff_iff]
        simp
      rw [vector_moveToNext hsize hlt, hflag]

end Vector

/-! ## Hash maps -/

namespace HashMap

variable {m m' : HashMap K V} {node : Node K V} {pre l : List (Node K V)}

/-- No two elements have one address. -/
structure WellFormed (m : HashMap K V) : Prop where
  nodup : (m.nodes.map Node.id).Nodup
  lt_nextId : ∀ node ∈ m.nodes, node.id < m.nextId

theorem not_mem_of_append (h : m.WellFormed) (hm : m.nodes = pre ++ node :: l) : ∀ n ∈ pre, n.id ≠ node.id := by
  intro n hn hid
  have hnodup := h.nodup
  rw [hm, List.map_append, List.nodup_append] at hnodup
  exact hnodup.2.2 n.id (List.mem_map_of_mem hn) node.id (by simp) hid

theorem node?_of_append (h : m.WellFormed) (hm : m.nodes = pre ++ node :: l) : m.node? node.id = some node := by
  have hpre : pre.find? (·.id == node.id) = none := by
    rw [List.find?_eq_none]
    intro n hn
    simpa using not_mem_of_append h hm n hn
  rw [node?, hm, List.find?_append, hpre]
  simp

theorem next_of_append (h : m.WellFormed) (hm : m.nodes = pre ++ node :: l) : m.next node.id = l.head?.map Node.id := by
  have hpre : ∀ n ∈ pre, (n.id != node.id) = true := by
    intro n hn
    simpa using not_mem_of_append h hm n hn
  rw [next, hm, List.dropWhile_append_of_pos hpre]
  simp

/-! ### How the operations keep it -/

theorem wellFormed_new : (new : HashMap K V).WellFormed := ⟨List.nodup_nil, fun _ h => by cases h⟩

theorem WellFormed.of_subset (h : m.WellFormed) (hsub : (m'.nodes.map Node.id).Sublist (m.nodes.map Node.id))
    (hnext : m'.nextId = m.nextId) : m'.WellFormed := by
  refine ⟨h.nodup.sublist hsub, fun n hn => ?_⟩
  obtain ⟨n', hn', hid⟩ := List.mem_map.1 (hsub.subset (List.mem_map_of_mem hn))
  rw [hnext, ← hid]
  exact h.lt_nextId n' hn'

theorem filterMap_getElem?_perm {α : Type} {order : List ℕ} {l : List α} (h : order.Perm (List.range l.length)) :
    (order.filterMap fun i => l[i]?).Perm l := by
  have hrange : (List.range l.length).filterMap (fun i => l[i]?) = l := by
    clear h
    induction l using List.reverseRecOn with
    | nil => rfl
    | append_singleton l a ih =>
      have hinit : (List.range l.length).filterMap (fun i => (l ++ [a])[i]?) = l := by
        rw [List.filterMap_congr fun i hi => List.getElem?_append_left (List.mem_range.1 hi), ih]
      rw [List.length_append, List.length_singleton, List.range_succ, List.filterMap_append, hinit]
      simp
  exact (h.filterMap _).trans (List.Perm.of_eq hrange)

theorem insert_perm {insertion : Insertion} (hm : m.insert node insertion = some m') :
    m'.nodes.Perm (node :: m.nodes) ∧ m'.nextId = m.nextId + 1 := by
  cases insertion with
  | inPlace position =>
    cases hm
    exact ⟨List.perm_insertIdx _ _ (Nat.min_le_right _ _), rfl⟩
  | rehashed order =>
    rw [insert, Option.ite_none_right_eq_some] at hm
    obtain ⟨horder, ⟨⟩⟩ := hm
    have hperm := filterMap_getElem?_perm (l := m.nodes ++ [node]) (by simpa using horder)
    exact ⟨hperm.trans (List.perm_append_singleton node m.nodes), rfl⟩

theorem WellFormed.insert (h : m.WellFormed) {insertion : Insertion} (hid : node.id = m.nextId)
    (hm : m.insert node insertion = some m') : m'.WellFormed := by
  obtain ⟨hperm, hnext⟩ := insert_perm hm
  have hnew : node.id ∉ m.nodes.map Node.id := by
    intro hmem
    obtain ⟨n, hn, hn'⟩ := List.mem_map.1 hmem
    have := h.lt_nextId n hn
    omega
  constructor
  · rw [(hperm.map Node.id).nodup_iff]
    exact List.nodup_cons.2 ⟨hnew, h.nodup⟩
  · intro n hn
    rw [hnext]
    rcases List.mem_cons.1 (hperm.subset hn) with rfl | hn
    · omega
    · exact Nat.lt_succ_of_lt (h.lt_nextId n hn)

theorem map_id_update (l : List (Node K V)) (id : ℕ) (value : V) :
    (l.map fun n => if n.id = id then { n with value } else n).map Node.id = l.map Node.id := by
  rw [List.map_map]
  refine List.map_congr_left fun n _ => ?_
  simp only [Function.comp_apply]
  split <;> rfl

theorem WellFormed.addOrUpdate [BEq K] (h : m.WellFormed) {key : K} {value : V} {insertion : Insertion}
    {allocation : Allocation} (hm : m.addOrUpdate key value insertion allocation = some (.ok m')) : m'.WellFormed := by
  rw [HashMap.addOrUpdate] at hm
  split at hm
  · cases hm
    exact h.of_subset ((map_id_update m.nodes _ value).symm ▸ List.Sublist.refl _) rfl
  · obtain ⟨m₁, hm₁, hm'⟩ := Option.map_eq_some_iff.1 hm
    obtain ⟨-, -, hok⟩ := Outcome.bind_eq_ok.1 hm'
    cases hok
    exact h.insert rfl hm₁

/-- **Every hash map is well-formed.** -/
theorem Made.wellFormed [BEq K] (h : m.Made) : m.WellFormed := by
  induction h with
  | new => exact wellFormed_new
  | addOrUpdate _ hm ih => exact ih.addOrUpdate hm
  | remove key _ ih => exact ih.of_subset (List.eraseP_sublist.map _) rfl
  | clear _ ih => exact ih.of_subset (List.nil_sublist _) rfl

end HashMap

/-- The iterator of a hash map: the elements from its position on are left. -/
theorem map_left {m : HashMap K V} (h : m.WellFormed) {pre l : List (Node K V)} (hm : m.nodes = pre ++ l) :
    (mapIterable T m).Left ⟨l.head?.map Node.id, m.generation⟩ (l.map fun node => .pair node.key node.value) := by
  induction l generalizing pre with
  | nil =>
    refine .exhausted ?_
    have hholds : (⟨none, m.generation⟩ : MapIterator).Holds m := ⟨rfl, fun id hid => by cases hid⟩
    simp only [mapIterable, mapIteratorCall, List.head?_nil, Option.map_none, if_pos hholds, Option.isSome_none]
  | cons node l ih =>
    have hnode := HashMap.node?_of_append h hm
    have hholds : (⟨some node.id, m.generation⟩ : MapIterator).Holds m := by
      refine ⟨rfl, fun id hid => ?_⟩
      cases hid
      rw [hnode]
      rfl
    have hm' : m.nodes = (pre ++ [node]) ++ l := by
      rw [hm, List.append_assoc]
      rfl
    have hl := ih hm'
    refine .next ?_ ?_ ?_ hl
    · simp only [mapIterable, mapIteratorCall, List.head?_cons, Option.map_some, if_pos hholds, Option.isSome_some]
    · simp only [mapIterable, mapIteratorCall, List.head?_cons, Option.map_some, if_pos hholds, Option.bind_some, hnode]
    · simp only [mapIterable, mapIteratorCall, List.head?_cons, Option.map_some, if_pos hholds,
        HashMap.next_of_append h hm]
      cases l <;> rfl

/-! ## The two containers -/

/-- **A loop over a vector or a hash map** comes to an end, and its body is executed once for each element: for those of
a vector in the order of their indices, and for the pairs of a hash map in the order of its elements. -/
theorem forEach_visits [BEq K] (P : Primitives τ) :
    (∀ buffer : List T, buffer.length < 2 ^ 64 →
      (vectorIterable T K V buffer).Visits P (buffer.map .element)) ∧
    (∀ m : HashMap K V, m.Made → (mapIterable T m).Visits P (m.nodes.map fun node => .pair node.key node.value)) := by
  constructor
  · intro buffer hsize
    exact visits_of_left P (vector_left hsize (Nat.zero_le _))
  · intro m hm
    exact visits_of_left P (map_left hm.wellFormed (List.nil_append m.nodes).symm)

/-- A vector of three elements, and a hash map of two, the second of which was put before the first. -/
theorem forEach_visits_run :
    (vectorIterable ℕ ℕ ℕ [7, 8, 7]).Visits Primitives.slot [.element 7, .element 8, .element 7] ∧
      (mapIterable ℕ ⟨[⟨1, 5, 3⟩, ⟨0, 4, 2⟩], 2, 0⟩).Visits Primitives.slot [.pair 5 3, .pair 4 2] := by
  have hone : HashMap.Made (⟨[⟨0, 4, 2⟩], 1, 0⟩ : HashMap ℕ ℕ) :=
    .addOrUpdate .new (rfl : HashMap.new.addOrUpdate 4 2 (.inPlace 0) .granted = _)
  have htwo : HashMap.Made (⟨[⟨1, 5, 3⟩, ⟨0, 4, 2⟩], 2, 0⟩ : HashMap ℕ ℕ) :=
    .addOrUpdate hone (rfl : HashMap.addOrUpdate _ 5 3 (.inPlace 0) .granted = _)
  exact ⟨(forEach_visits Primitives.slot).1 [7, 8, 7] (by decide), (forEach_visits Primitives.slot).2 _ htwo⟩

end Nessus.Abi.Iterators
