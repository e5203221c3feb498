import Nessus.Lib.Count
import Nessus.Memory.BlockingQueue

/-!
# What the blocking queue guarantees

* `Steps` — what one step can do, given the items in the queue;
* `Legal` — the logs of a bounded FIFO in which the oldest item is dropped by `enqueue_nowait` only;
* `QueueInv` — where the log, the queue, and the calls that wait, that are awake and that are about to notify stand to
  each other; every step keeps it (`step_inv`);
* `blockingQueue_spec` — the guarantees in every interleaving.
-/

namespace Nessus.Memory

open Nessus.Lib

variable {α : Type}

/-! ## Logs -/

/-- The item that an effect puts into the queue. -/
def Effect.inserted? : Effect α → Option α
  | inserted _ item => some item
  | _ => none

/-- The item that a call has got. -/
def Effect.dequeued? : Effect α → Option α
  | dequeued _ item => some item
  | _ => none

def Effect.dropped? : Effect α → Option α
  | dropped _ item => some item
  | _ => none

/-- The item that an effect takes out of the queue. -/
def Effect.removed? (e : Effect α) : Option α := e.dequeued? <|> e.dropped?

theorem length_removed (log : List (Effect α)) : (log.filterMap Effect.removed?).length =
    (log.filterMap Effect.dequeued?).length + (log.filterMap Effect.dropped?).length := by
  induction log with
  | nil => rfl
  | cons e log ih =>
    cases e with
    | inserted i x => exact ih
    | dequeued i x =>
      have hcons : ((Effect.dequeued i x :: log).filterMap Effect.removed?).length =
          (log.filterMap Effect.removed?).length + 1 := rfl
      rw [hcons, ih, Nat.add_right_comm]
      rfl
    | dropped i x => exact congrArg (· + 1) ih

/-- The logs of a bounded FIFO with what they leave in it: an item is inserted where there is room, and the oldest one
is dequeued, or dropped by a call that may do so where there is no room. -/
inductive Legal (capacity : ℕ) (mayDrop : ℕ → Prop) : List (Effect α) → List α → Prop where
  | start : Legal capacity mayDrop [] []
  | inserted {log : List (Effect α)} {items : List α} (i : ℕ) (x : α) (h : Legal capacity mayDrop log items)
      (hlt : items.length < capacity) : Legal capacity mayDrop (log ++ [.inserted i x]) (items ++ [x])
  | dequeued {log : List (Effect α)} {items : List α} (i : ℕ) (x : α) (h : Legal capacity mayDrop log (x :: items)) :
      Legal capacity mayDrop (log ++ [.dequeued i x]) items
  | dropped {log : List (Effect α)} {items : List α} (i : ℕ) (x : α) (h : Legal capacity mayDrop log (x :: items))
      (hfull : items.length + 1 = capacity) (hi : mayDrop i) : Legal capacity mayDrop (log ++ [.dropped i x]) items

namespace Legal

variable {capacity : ℕ} {p p' : ℕ → Prop} {log : List (Effect α)} {items : List α}

theorem mono (h : Legal capacity p log items) (hp : ∀ i, p i → p' i) : Legal capacity p' log items := by
  induction h with
  | start => exact .start
  | inserted i x _ hlt ih => exact .inserted i x ih hlt
  | dequeued i x _ ih => exact .dequeued i x ih
  | dropped i x _ hfull hi ih => exact .dropped i x ih hfull (hp i hi)

/-- **Items leave in the order in which they were inserted**: those that have left are the first ones. -/
theorem order (h : Legal capacity p log items) :
    log.filterMap Effect.inserted? = log.filterMap Effect.removed? ++ items := by
  induction h with
  | start => rfl
  | inserted i x _ _ ih => simp [Effect.inserted?, Effect.removed?, Effect.dequeued?, Effect.dropped?, ih]
  | dequeued i x _ ih => simp [Effect.inserted?, Effect.removed?, Effect.dequeued?, ih]
  | dropped i x _ _ _ ih => simp [Effect.inserted?, Effect.removed?, Effect.dequeued?, Effect.dropped?, ih]

theorem length (h : Legal capacity p log items) : (log.filterMap Effect.inserted?).length =
    (log.filterMap Effect.dequeued?).length + items.length + (log.filterMap Effect.dropped?).length := by
  rw [h.order, List.length_append, length_removed]
  omega

/-- Every drop is one of the oldest item, where there is no room, by a call that may do so. -/
theorem drop (h : Legal capacity p log items) : ∀ log₁ i x log₂, log = log₁ ++ .dropped i x :: log₂ →
    p i ∧ ∃ rest, log₁.filterMap Effect.inserted? = log₁.filterMap Effect.removed? ++ x :: rest ∧
      rest.length + 1 = capacity := by
  have hlast {log log₁ log₂ : List (Effect α)} {e : Effect α} {i : ℕ} {x : α}
      (heq : log ++ [e] = log₁ ++ .dropped i x :: log₂) :
      (∃ l, log = log₁ ++ .dropped i x :: l) ∨ e = .dropped i x ∧ log₁ = log := by
    rcases List.eq_nil_or_concat log₂ with rfl | ⟨l, e', rfl⟩
    · obtain ⟨h₁, h₂⟩ := List.append_inj' heq rfl
      exact .inr ⟨(List.cons.inj h₂).1, h₁.symm⟩
    · rw [List.concat_eq_append, ← List.cons_append, ← List.append_assoc] at heq
      exact .inl ⟨l, (List.append_inj' heq rfl).1⟩
  induction h with
  | start =>
    intro log₁ i x log₂ heq
    simp at heq
  | inserted j y _ _ ih =>
    intro log₁ i x log₂ heq
    rcases hlast heq with ⟨l, hl⟩ | ⟨he, -⟩
    · exact ih log₁ i x l hl
    · cases he
  | dequeued j y _ ih =>
    intro log₁ i x log₂ heq
    rcases hlast heq with ⟨l, hl⟩ | ⟨he, -⟩
    · exact ih log₁ i x l hl
    · cases he
  | @dropped log rest j y h hfull hj ih =>
    intro log₁ i x log₂ heq
    rcases hlast heq with ⟨l, hl⟩ | ⟨he, rfl⟩
    · exact ih log₁ i x l hl
    · cases he
      exact ⟨hj, rest, h.order, hfull⟩

end Legal

/-! ## What one step can do -/

/-- The item that the method puts into the queue. -/
def CallKind.item? : CallKind α → Option α
  | enqueue item => some item
  | enqueueFor item => some item
  | enqueueNowait item => some item
  | dequeue => none
  | dequeueFor => none

def CallKind.nowait : CallKind α → Bool
  | enqueueNowait _ => true
  | _ => false

/-- The call can take the lock; `timedOut` tells whether its time is over. -/
def Call.Ready (c : Call α) (timedOut : Bool) : Prop :=
  c.phase = .start ∧ timedOut = false ∨ c.phase = .awakened timedOut

/-- The steps, with the phases that their calls are in, where the queue holds the items of `f`. -/
inductive Steps (f : Fifo α) (s : State α) : QueueStep α → State α → Prop where
  | call {kind : CallKind α} : Steps f s (.call kind) { s with calls := s.calls ++ [⟨kind, .start⟩] }
  | wait {i : ℕ} {c : Call α} {t : Bool} (hc : s.calls[i]? = some c) (hr : c.Ready t) (hk : c.kind.nowait = false)
      (hno : if c.kind.consumes then f.items = [] else f.items.length = f.capacity) :
      Steps f s (.lock i) (s.wait i c t)
  | insert {i : ℕ} {c : Call α} {t : Bool} {item : α} {queue : CircularQueue α} (hc : s.calls[i]? = some c)
      (hr : c.Ready t) (hk : c.kind.item? = some item) (hq : Holds queue (f.push item))
      (hfull : f.items.length = f.capacity → c.kind.nowait = true) :
      Steps f s (.lock i)
        (State.move { s with queue, log := s.log ++ (s.lost i ++ [.inserted i item]) } i c (.notifying none))
  | remove {i : ℕ} {c : Call α} {t : Bool} {item : α} {items : List α} {queue : CircularQueue α}
      (hc : s.calls[i]? = some c) (hr : c.Ready t) (hk : c.kind.consumes = true) (hitems : f.items = item :: items)
      (hq : Holds queue f.pop) :
      Steps f s (.lock i) (State.move { s with queue, log := s.log ++ [.dequeued i item] } i c (.notifying (some item)))
  | notifyNone {i : ℕ} {c : Call α} {popped : Option α} (hc : s.calls[i]? = some c) (hp : c.phase = .notifying popped)
      (hw : ∀ w ∈ s.calls, State.waitsFor c.kind w = false) :
      Steps f s (.notify i none) (s.move i c (.returned true popped))
  | notifyOne {i j : ℕ} {c w : Call α} {popped : Option α} {t : Bool} (hc : s.calls[i]? = some c)
      (hp : c.phase = .notifying popped) (hw : s.calls[j]? = some w) (hwait : State.waitsFor c.kind w = true)
      (ht : t = true → w.kind.timed = true) :
      Steps f s (.notify i (some (j, t))) ((s.move i c (.returned true popped)).move j w (.awakened t))
  | wake {j : ℕ} {w : Call α} {t : Bool} (hw : s.calls[j]? = some w) (hb : w.blocked = true)
      (ht : t = true → w.kind.timed = true) :
      Steps f s (.wake j t) (s.move j w (.awakened t))

section Cases

variable {f : Fifo α} {s : State α}

/-- The critical section is defined, and ends with a wait, an insertion or a removal. -/
theorem critical_cases (h : Holds s.queue f) {i : ℕ} {c : Call α} (hc : s.calls[i]? = some c) {t : Bool}
    (hr : c.Ready t) : ∃ s', s.critical i c t = .ok s' ∧ Steps f s (.lock i) s' := by
  have hinsert {item : α} (hk : c.kind.item? = some item) (hfull : f.items.length = f.capacity → c.kind.nowait = true) :
      ∃ s', s.insert i c item = .ok s' ∧ Steps f s (.lock i) s' := by
    obtain ⟨queue, hpush, hq⟩ := h.pushBack (ε := VectorError) item
    refine ⟨_, ?_, .insert hc hr hk hq hfull⟩
    rw [State.insert, hpush, Outcome.ok_bind]
  have hput {item : α} (hk : c.kind.item? = some item) (hcons : c.kind.consumes = false) (hnw : c.kind.nowait = false) :
      ∃ s', (s.queue.full >>= fun full => if full then .ok (s.wait i c t) else s.insert i c item) = .ok s' ∧
        Steps f s (.lock i) s' := by
    rw [h.full_eq, Outcome.ok_bind]
    by_cases hfull : f.items.length = f.capacity
    · rw [if_pos (decide_eq_true hfull)]
      exact ⟨_, rfl, .wait hc hr hnw (by rw [hcons]; exact hfull)⟩
    · rw [if_neg (by simpa using hfull)]
      exact hinsert hk fun hyes => absurd hyes hfull
  have hget (hcons : c.kind.consumes = true) (hnw : c.kind.nowait = false) :
      ∃ s', (if s.queue.empty then .ok (s.wait i c t) else s.remove i c) = .ok s' ∧ Steps f s (.lock i) s' := by
    by_cases hempty : s.queue.empty = true
    · rw [if_pos hempty]
      exact ⟨_, rfl, .wait hc hr hnw (by rw [hcons]; exact h.empty_iff.1 hempty)⟩
    · have hne : f.items ≠ [] := fun hnil => hempty (h.empty_iff.2 hnil)
      obtain ⟨item, items, hitems⟩ := List.exists_cons_of_ne_nil hne
      obtain ⟨queue, hpop, hq⟩ := h.popFront (ε := VectorError) hne
      have hfront : (s.queue.front : Outcome VectorError α) = .ok item := h.front_eq (by rw [hitems]; rfl)
      rw [if_neg hempty, State.remove, hfront, Outcome.ok_bind, hpop, Outcome.ok_bind]
      exact ⟨_, rfl, .remove hc hr hcons hitems hq⟩
  unfold State.critical
  cases hkind : c.kind with
  | enqueue item => exact hput (by rw [hkind]; rfl) (by rw [hkind]; rfl) (by rw [hkind]; rfl)
  | enqueueFor item => exact hput (by rw [hkind]; rfl) (by rw [hkind]; rfl) (by rw [hkind]; rfl)
  | enqueueNowait item => exact hinsert (by rw [hkind]; rfl) fun _ => by rw [hkind]; rfl
  | dequeue => exact hget (by rw [hkind]; rfl) (by rw [hkind]; rfl)
  | dequeueFor => exact hget (by rw [hkind]; rfl) (by rw [hkind]; rfl)

theorem step_cases (h : Holds s.queue f) {a : QueueStep α} {r : Outcome VectorError (State α)}
    (hs : s.step a = some r) : ∃ s', r = .ok s' ∧ Steps f s a s' := by
  cases a with
  | call kind =>
    cases hs
    exact ⟨_, rfl, .call⟩
  | lock i =>
    obtain ⟨c, hc, hs⟩ := Option.bind_eq_some_iff.1 hs
    cases hphase : c.phase with
    | start =>
      rw [hphase] at hs
      cases hs
      exact critical_cases h hc (.inl ⟨hphase, rfl⟩)
    | awakened t =>
      rw [hphase] at hs
      cases hs
      exact critical_cases h hc (.inr hphase)
    | blocked => simp [hphase] at hs
    | notifying popped => simp [hphase] at hs
    | returned success popped => simp [hphase] at hs
  | notify i target =>
    obtain ⟨c, hc, hs⟩ := Option.bind_eq_some_iff.1 hs
    cases hphase : c.phase with
    | notifying popped =>
      rw [hphase] at hs
      cases target with
      | none =>
        dsimp only at hs
        split at hs
        · cases hs
        · next hany =>
          cases hs
          exact ⟨_, rfl, .notifyNone hc hphase fun w hw => Bool.eq_false_iff.2 fun hyes =>
            hany (List.any_eq_true.2 ⟨w, hw, hyes⟩)⟩
      | some target =>
        obtain ⟨j, t⟩ := target
        obtain ⟨w, hw, hs⟩ := Option.bind_eq_some_iff.1 hs
        split at hs
        · next hwait =>
          cases hs
          exact ⟨_, rfl, .notifyOne hc hphase hw hwait.1 hwait.2⟩
        · cases hs
    | start => simp [hphase] at hs
    | awakened t => simp [hphase] at hs
    | blocked => simp [hphase] at hs
    | returned success popped => simp [hphase] at hs
  | wake j t =>
    obtain ⟨w, hw, hs⟩ := Option.bind_eq_some_iff.1 hs
    split at hs
    · next hb =>
      cases hs
      exact ⟨_, rfl, .wake hw hb.1 hb.2⟩
    · cases hs

end Cases

/-! ## The invariant -/

/-- What a call of the method that has gone through its critical section has done. -/
def CallKind.Effects (i : ℕ) (popped : Option α) (l : List (Effect α)) : CallKind α → Prop
  | enqueue item => popped = none ∧ l = [.inserted i item]
  | enqueueFor item => popped = none ∧ l = [.inserted i item]
  | enqueueNowait item => popped = none ∧ (l = [.inserted i item] ∨ ∃ old, l = [.dropped i old, .inserted i item])
  | dequeue => ∃ item, popped = some item ∧ l = [.dequeued i item]
  | dequeueFor => ∃ item, popped = some item ∧ l = [.dequeued i item]

/-- What a call has done so far: before its critical section, and after a time-out, nothing. -/
def Call.Effects (i : ℕ) (l : List (Effect α)) (c : Call α) : Prop :=
  match c.phase with
  | .notifying popped => c.kind.Effects i popped l
  | .returned true popped => c.kind.Effects i popped l
  | _ => l = []

/-- The call is no longer in the condition variable, and not yet behind its critical section. -/
def Call.awake (c : Call α) : Bool :=
  match c.phase with
  | .awakened _ => true
  | _ => false

/-- The call is about to notify. -/
def Call.notifies (c : Call α) : Bool :=
  match c.phase with
  | .notifying _ => true
  | _ => false

/-- The time of the call is over: `wait_until` is going to return so, or the call has returned without success. -/
def Call.overdue (c : Call α) : Bool :=
  match c.phase with
  | .awakened timedOut => timedOut
  | .returned success _ => !success
  | _ => false

/-- A call has the property, and consumes or produces as `k` says. -/
def Call.side (k : Bool) (p : Call α → Bool) (c : Call α) : Bool := p c && (c.kind.consumes == k)

/-- What the consumers, or the producers, are waiting for: items, or room for them. -/
def Fifo.available (f : Fifo α) (k : Bool) : ℕ := if k then f.items.length else f.capacity - f.items.length

/-- The number of calls of one side with the property. -/
def State.count (s : State α) (k : Bool) (p : Call α → Bool) : ℕ := s.calls.countP (Call.side k p)

/-- The call may drop an item. -/
def State.mayDrop (s : State α) (i : ℕ) : Prop := ∃ c, s.calls[i]? = some c ∧ c.kind.nowait = true

/-- As long as a call of one side waits, at least `g` calls of that side are awake or about to be woken. -/
def Covered (g : Bool → ℕ) (s : State α) : Prop :=
  ∀ k, 0 < s.count k Call.blocked → g k ≤ s.count k Call.awake + s.count (!k) Call.notifies

/-- **The invariant**: among the rest, as many calls are awake or about to be woken as there are items, or room, for
them. -/
structure QueueInv (f : Fifo α) (s : State α) : Prop where
  holds : Holds s.queue f
  legal : Legal f.capacity s.mayDrop s.log f.items
  dropped : f.dropped = (s.log.filterMap Effect.dropped?).length
  effects : ∀ (i : ℕ) (c : Call α), s.calls[i]? = some c → c.Effects i (s.log.filter fun e => e.call == i)
  made : ∀ e ∈ s.log, e.call < s.calls.length
  timed : ∀ c ∈ s.calls, c.overdue = true → c.kind.timed = true
  covered : Covered f.available s

section Inv

variable {f f' : Fifo α} {s s' : State α}

/-- The count of one side, where a call goes on to a phase. -/
theorem count_move {i : ℕ} {c : Call α} (hc : s.calls[i]? = some c) (phase : Phase α) (k : Bool) (p : Call α → Bool) :
    (s.move i c phase).count k p + (if c.side k p then 1 else 0) =
      s.count k p + (if Call.side k p { c with phase } then 1 else 0) := countP_set hc _

theorem le_count {i : ℕ} {c : Call α} (hc : s.calls[i]? = some c) (k : Bool) (p : Call α → Bool) :
    (if c.side k p then 1 else 0) ≤ s.count k p := by
  split
  · next hp => exact countP_pos_of_getElem? hc hp
  · exact Nat.zero_le _

theorem effects_move (h : ∀ (j : ℕ) (d : Call α), s.calls[j]? = some d → d.Effects j (s.log.filter fun e => e.call == j)) {i : ℕ}
    {c : Call α} (hc : s.calls[i]? = some c) (queue : CircularQueue α) (es : List (Effect α)) (phase : Phase α)
    (hes : ∀ e ∈ es, e.call = i)
    (hnew : ({ c with phase } : Call α).Effects i ((s.log.filter fun e => e.call == i) ++ es)) :
    ∀ (j : ℕ) (d : Call α), (State.move { s with queue, log := s.log ++ es } i c phase).calls[j]? = some d →
      d.Effects j ((s.log ++ es).filter fun e => e.call == j) := by
  intro j d hd
  rw [List.filter_append]
  by_cases hij : i = j
  · subst hij
    have hall : (es.filter fun e => e.call == i) = es := List.filter_eq_self.2 fun e he => beq_iff_eq.2 (hes e he)
    obtain ⟨hlt, -⟩ := List.getElem?_eq_some_iff.1 hc
    rw [hall]
    simp only [State.move, List.getElem?_set_self hlt, Option.some_inj] at hd
    exact hd ▸ hnew
  · have hnone : (es.filter fun e => e.call == j) = [] := List.filter_eq_nil_iff.2 fun e he hj =>
      hij ((hes e he).symm.trans (beq_iff_eq.1 hj))
    simp only [State.move, List.getElem?_set_ne hij] at hd
    rw [hnone, List.append_nil]
    exact h j d hd

theorem mayDrop_move {i : ℕ} {c : Call α} (hc : s.calls[i]? = some c) (phase : Phase α) (j : ℕ) :
    s.mayDrop j → (s.move i c phase).mayDrop j := by
  rintro ⟨d, hd, hnw⟩
  by_cases hij : i = j
  · subst hij
    obtain rfl := Option.some.inj (hc.symm.trans hd)
    obtain ⟨hlt, -⟩ := List.getElem?_eq_some_iff.1 hc
    exact ⟨_, List.getElem?_set_self hlt, hnw⟩
  · exact ⟨d, (List.getElem?_set_ne hij).trans hd, hnw⟩

/-- A call goes on to a phase in which its time is over only if it has a limit. -/
theorem timed_move (h : ∀ c ∈ s.calls, c.overdue = true → c.kind.timed = true) {i : ℕ} {c : Call α} {phase : Phase α}
    (hnew : Call.overdue { c with phase } = true → c.kind.timed = true) :
    ∀ d ∈ s.calls.set i { c with phase }, d.overdue = true → d.kind.timed = true := by
  intro d hd
  rcases List.mem_or_eq_of_mem_set hd with hd | rfl
  · exact h d hd
  · exact hnew

theorem Call.Ready.effects {c : Call α} {t : Bool} (hr : c.Ready t) {i : ℕ} {l : List (Effect α)} (h : c.Effects i l) :
    l = [] := by
  unfold Call.Effects at h
  rcases hr with ⟨hp, -⟩ | hp <;> rw [hp] at h <;> exact h

theorem Call.Ready.blocked {c : Call α} {t : Bool} (hr : c.Ready t) : c.blocked = false := by
  unfold Call.blocked
  rcases hr with ⟨hp, -⟩ | hp <;> rw [hp]

theorem Call.Ready.notifies {c : Call α} {t : Bool} (hr : c.Ready t) : c.notifies = false := by
  unfold Call.notifies
  rcases hr with ⟨hp, -⟩ | hp <;> rw [hp]

theorem Call.Ready.overdue {c : Call α} (hr : c.Ready true) : c.overdue = true := by
  rcases hr with ⟨-, ht⟩ | hp
  · cases ht
  · rw [Call.overdue, hp]

theorem side_of_ne {c : Call α} {k : Bool} (h : c.kind.consumes ≠ k) (p : Call α → Bool) : c.side k p = false := by
  rw [Call.side, beq_eq_false_iff_ne.2 h, Bool.and_false]

theorem side_of_eq {c : Call α} {k : Bool} (h : c.kind.consumes = k) (p : Call α → Bool) : c.side k p = p c := by
  rw [Call.side, beq_iff_eq.2 h, Bool.and_true]

/-- A call goes on: what has to be shown for the calls of its side, of which `b` others wait and `a` others are awake or
about to be woken, and for the calls of the other side. -/
theorem Covered.move {g g' : Bool → ℕ} (h : Covered g s) {i : ℕ} {c : Call α} (hc : s.calls[i]? = some c)
    (queue : CircularQueue α) (log : List (Effect α)) {phase : Phase α}
    (hown : ∀ b a, (0 < b + (if c.blocked then 1 else 0) → g c.kind.consumes ≤ a + if c.awake then 1 else 0) →
      0 < b + (if Call.blocked { c with phase } then 1 else 0) →
        g' c.kind.consumes ≤ a + if Call.awake { c with phase } then 1 else 0)
    (hother : 0 < s.count (!c.kind.consumes) Call.blocked →
      g' (!c.kind.consumes) + (if c.notifies then 1 else 0) ≤
        g (!c.kind.consumes) + if Call.notifies { c with phase } then 1 else 0) :
    Covered g' (State.move { s with queue, log } i c phase) := by
  intro k hpos
  have hcount (k : Bool) (p : Call α → Bool) := count_move hc phase k p
  have heq (k : Bool) (p : Call α → Bool) :
      (State.move { s with queue, log } i c phase).count k p = (s.move i c phase).count k p := rfl
  rw [heq] at hpos
  rw [heq, heq]
  have hk := h k
  have hW := hcount k Call.blocked
  have hA := hcount k Call.awake
  have hN := hcount (!k) Call.notifies
  have hW₁ := le_count hc k Call.blocked
  have hA₁ := le_count hc k Call.awake
  by_cases hside : c.kind.consumes = k
  · have hne : c.kind.consumes ≠ !k := by
      rw [hside]
      cases k <;> decide
    rw [side_of_eq hside] at hW₁ hA₁
    rw [side_of_eq hside, side_of_eq (c := { c with phase }) hside] at hW hA
    rw [side_of_ne hne, side_of_ne (c := { c with phase }) hne] at hN
    rw [hside] at hown
    have hown := hown (s.count k Call.blocked - if c.blocked then 1 else 0)
      (s.count k Call.awake - (if c.awake then 1 else 0) + s.count (!k) Call.notifies)
    omega
  · obtain rfl : k = !c.kind.consumes := by
      revert hside
      cases k <;> cases c.kind.consumes <;> decide
    rw [Bool.not_not] at hN hk ⊢
    rw [side_of_ne hside, side_of_ne (c := { c with phase }) hside] at hW hA
    rw [side_of_eq rfl, side_of_eq (c := { c with phase }) rfl] at hN
    omega

theorem lost_of_lt (h : Holds s.queue f) (hlt : f.items.length < f.capacity) (i : ℕ) : s.lost i = [] := by
  have hfull : decide (f.items.length = f.capacity) = false := decide_eq_false (by omega)
  unfold State.lost
  rw [h.full_eq, hfull]

theorem lost_of_full (h : Holds s.queue f) (hfull : f.items.length = f.capacity) {x : α} {items : List α}
    (hitems : f.items = x :: items) (i : ℕ) : s.lost i = [.dropped i x] := by
  unfold State.lost
  rw [h.full_eq, decide_eq_true hfull, h.front_eq (by rw [hitems]; rfl)]

theorem push_cases (h : Holds s.queue f) (hcap : 0 < f.capacity) (i : ℕ) (item : α) :
    (s.lost i = [] ∧ f.items.length < f.capacity ∧ (f.push item).items = f.items ++ [item] ∧
      (f.push item).dropped = f.dropped) ∨
    ∃ x items, s.lost i = [.dropped i x] ∧ f.items = x :: items ∧ items.length + 1 = f.capacity ∧
      (f.push item).items = items ++ [item] ∧ (f.push item).dropped = f.dropped + 1 := by
  rcases Nat.lt_or_eq_of_le f.bounded with hlt | hfull
  · obtain ⟨hitems, hdropped⟩ := Fifo.push_of_lt hlt item
    exact .inl ⟨lost_of_lt h hlt i, hlt, hitems, hdropped⟩
  · obtain ⟨x, items, hx⟩ := List.exists_cons_of_length_pos (hfull ▸ hcap)
    obtain ⟨hitems, hdropped⟩ := Fifo.push_of_full hfull item
    rw [hx, List.length_cons] at hfull
    rw [hx] at hitems
    exact .inr ⟨x, items, lost_of_full h (by rw [hx]; exact hfull) hx i, hx, hfull, hitems, hdropped⟩

/-- A call leaves its critical section after the effects `es`: what it waited for has become less, and there is one more
at most of what the other side waits for. -/
theorem leave_inv (h : QueueInv f s) {i : ℕ} {c : Call α} {t : Bool} {queue : CircularQueue α} {es : List (Effect α)}
    {popped : Option α} (hc : s.calls[i]? = some c) (hr : c.Ready t) (hq : Holds queue f')
    (hcap : f'.capacity = f.capacity) (hlegal : Legal f.capacity s.mayDrop (s.log ++ es) f'.items)
    (hdropped : f'.dropped = f.dropped + (es.filterMap Effect.dropped?).length) (hcall : ∀ e ∈ es, e.call = i)
    (heffects : c.kind.Effects i popped es)
    (hown : f'.available c.kind.consumes ≤ f.available c.kind.consumes - 1)
    (hother : f'.available (!c.kind.consumes) ≤ f.available (!c.kind.consumes) + 1) :
    QueueInv f' (State.move { s with queue, log := s.log ++ es } i c (.notifying popped)) := by
  obtain ⟨hlt, -⟩ := List.getElem?_eq_some_iff.1 hc
  have hawake : ({ c with phase := .notifying popped } : Call α).awake = false := rfl
  have hblocked : ({ c with phase := .notifying popped } : Call α).blocked = false := rfl
  have hnotifies : ({ c with phase := .notifying popped } : Call α).notifies = true := rfl
  constructor
  · exact hq
  · rw [hcap]
    exact hlegal.mono (mayDrop_move hc _)
  · show f'.dropped = ((s.log ++ es).filterMap Effect.dropped?).length
    rw [hdropped, h.dropped, List.filterMap_append, List.length_append]
  · refine effects_move h.effects hc queue es (.notifying popped) hcall ?_
    rw [hr.effects (h.effects i c hc), List.nil_append]
    exact heffects
  · intro e he
    rw [State.move, List.length_set]
    rcases List.mem_append.1 he with he | he
    · exact h.made e he
    · rw [hcall e he]
      exact hlt
  · exact timed_move h.timed fun hover => Bool.noConfusion hover
  · refine h.covered.move hc queue (s.log ++ es) (fun b a hbefore hafter => ?_) (fun _ => ?_)
    · rw [hblocked] at hafter
      rw [hr.blocked] at hbefore
      have hle : (if c.awake then 1 else 0) ≤ 1 := by split <;> decide
      have := hbefore hafter
      rw [hawake]
      simp only [Bool.false_eq_true, if_false]
      omega
    · rw [hr.notifies, hnotifies]
      exact hother

theorem insert_inv (h : QueueInv f s) (hcap : 0 < f.capacity) {i : ℕ} {c : Call α} {t : Bool} {item : α}
    {queue : CircularQueue α} (hc : s.calls[i]? = some c) (hr : c.Ready t) (hk : c.kind.item? = some item)
    (hq : Holds queue (f.push item)) (hnw : f.items.length = f.capacity → c.kind.nowait = true) :
    QueueInv (f.push item)
      (State.move { s with queue, log := s.log ++ (s.lost i ++ [Effect.inserted i item]) } i c (.notifying none)) := by
  have hprod : c.kind.consumes = false := by
    revert hk
    cases c.kind <;> simp [CallKind.item?, CallKind.consumes]
  rcases push_cases h.holds hcap i item with ⟨hlost, hroom, hitems, hdropped⟩ | ⟨x, items, hlost, hx, hfull, hitems, hdropped⟩
  · rw [hlost, List.nil_append]
    refine leave_inv h hc hr hq (Fifo.capacity_push ..) ?_ hdropped (by simp [Effect.call]) ?_ ?_ ?_
    · rw [hitems]
      exact h.legal.inserted i item hroom
    · revert hk
      cases c.kind <;> simp +contextual [CallKind.item?, CallKind.Effects]
    · rw [hprod]
      simp only [Fifo.available, Fifo.capacity_push, hitems, List.length_append, List.length_singleton]
      simp
      omega
    · rw [hprod]
      simp [Fifo.available, hitems]
  · have hnowait : c.kind.nowait = true := hnw (by rw [hx, List.length_cons]; exact hfull)
    rw [hlost]
    refine leave_inv h hc hr hq (Fifo.capacity_push ..) ?_ hdropped (by simp [Effect.call]) ?_ ?_ ?_
    · have hlegal := h.legal
      rw [hx] at hlegal
      rw [hitems, List.singleton_append, List.append_cons]
      exact (hlegal.dropped i x hfull ⟨c, hc, hnowait⟩).inserted i item (by omega)
    · revert hk hnowait
      cases c.kind <;> simp +contextual [CallKind.item?, CallKind.Effects, CallKind.nowait]
    · rw [hprod]
      simp [Fifo.available, hitems, hx]
      omega
    · rw [hprod]
      simp [Fifo.available, hitems, hx]

theorem remove_inv (h : QueueInv f s) {i : ℕ} {c : Call α} {t : Bool} {item : α} {items : List α}
    {queue : CircularQueue α} (hc : s.calls[i]? = some c) (hr : c.Ready t) (hk : c.kind.consumes = true)
    (hitems : f.items = item :: items) (hq : Holds queue f.pop) :
    QueueInv f.pop
      (State.move { s with queue, log := s.log ++ [Effect.dequeued i item] } i c (.notifying (some item))) := by
  have hpop : f.pop.items = items := by
    show f.items.tail = items
    rw [hitems, List.tail_cons]
  refine leave_inv h hc hr hq rfl ?_ rfl (by simp [Effect.call]) ?_ ?_ ?_
  · have hlegal := h.legal
    rw [hitems] at hlegal
    rw [hpop]
    exact hlegal.dequeued i item
  · revert hk
    cases c.kind <;> simp [CallKind.Effects, CallKind.consumes]
  · rw [hk]
    simp [Fifo.available, hpop, hitems]
  · rw [hk]
    have hcap : f.pop.capacity = f.capacity := rfl
    simp only [Fifo.available, hpop, hitems, hcap, List.length_cons]
    simp
    omega

theorem move_inv (h : QueueInv f s) {i : ℕ} {c : Call α} {phase : Phase α} (hc : s.calls[i]? = some c)
    (heffects : ∀ l, c.Effects i l → ({ c with phase } : Call α).Effects i l)
    (hover : Call.overdue { c with phase } = true → c.kind.timed = true)
    (hcovered : Covered f.available (s.move i c phase)) : QueueInv f (s.move i c phase) := by
  constructor
  · exact h.holds
  · exact h.legal.mono (mayDrop_move hc phase)
  · exact h.dropped
  · have heff := effects_move h.effects hc s.queue [] phase (by simp)
      (by rw [List.append_nil]; exact heffects _ (h.effects i c hc))
    rwa [List.append_nil] at heff
  · intro e he
    rw [State.move, List.length_set]
    exact h.made e he
  · exact timed_move h.timed hover
  · exact hcovered

theorem call_inv (h : QueueInv f s) (kind : CallKind α) :
    QueueInv f { s with calls := s.calls ++ [⟨kind, .start⟩] } := by
  have hcount (k : Bool) {p : Call α → Bool} (hp : p ⟨kind, .start⟩ = false) :
      State.count { s with calls := s.calls ++ [⟨kind, .start⟩] } k p = s.count k p := by
    rw [State.count, countP_concat, Call.side, hp]
    rfl
  constructor
  · exact h.holds
  · refine h.legal.mono fun j => ?_
    rintro ⟨d, hd, hnw⟩
    obtain ⟨hlt, -⟩ := List.getElem?_eq_some_iff.1 hd
    exact ⟨d, (List.getElem?_append_left hlt).trans hd, hnw⟩
  · exact h.dropped
  · intro j d hd
    rcases Nat.lt_trichotomy j s.calls.length with hlt | rfl | hgt
    · rw [List.getElem?_append_left hlt] at hd
      exact h.effects j d hd
    · rw [List.getElem?_concat_length, Option.some_inj] at hd
      subst hd
      refine List.filter_eq_nil_iff.2 fun e he hcall => ?_
      have := h.made e he
      rw [beq_iff_eq.1 hcall] at this
      exact Nat.lt_irrefl _ this
    · rw [List.getElem?_eq_none (by simp; omega)] at hd
      cases hd
  · intro e he
    have := h.made e he
    rw [List.length_append]
    omega
  · intro d hd
    rcases List.mem_append.1 hd with hd | hd
    · exact h.timed d hd
    · rw [List.mem_singleton.1 hd]
      exact fun hover => Bool.noConfusion hover
  · intro k
    rw [hcount k rfl, hcount k rfl, hcount (!k) rfl]
    exact h.covered k

/-- A call waits, or returns without a success, where what it waits for is not there. -/
theorem wait_inv (h : QueueInv f s) {i : ℕ} {c : Call α} {t : Bool} (hc : s.calls[i]? = some c) (hr : c.Ready t)
    (hno : if c.kind.consumes then f.items = [] else f.items.length = f.capacity) : QueueInv f (s.wait i c t) := by
  have hzero : f.available c.kind.consumes = 0 := by
    unfold Fifo.available
    cases hk : c.kind.consumes <;> rw [hk] at hno
    · exact Nat.sub_eq_zero_of_le (Nat.le_of_eq hno.symm)
    · exact List.length_eq_zero_iff.2 hno
  have hnotifies : ({ c with phase := if t then .returned false none else .blocked } : Call α).notifies = false := by
    cases t <;> rfl
  refine move_inv h hc (fun l hl => ?_) (fun hover => ?_)
    (h.covered.move hc s.queue s.log (fun b a _ _ => ?_) (fun _ => ?_))
  · rw [hr.effects hl]
    cases t <;> rfl
  · cases t with
    | true => exact h.timed c (List.mem_of_getElem? hc) hr.overdue
    | false => cases hover
  · rw [hzero]
    exact Nat.zero_le _
  · rw [hr.notifies, hnotifies]

theorem Call.blocked_phase {w : Call α} (hb : w.blocked = true) : w.phase = .blocked := by
  unfold Call.blocked at hb
  split at hb
  · assumption
  · cases hb

/-- A call that waits is woken: there is one more that is awake, and one less that waits. -/
theorem wake_covered {g : Bool → ℕ} (h : Covered g s) {j : ℕ} {w : Call α} {t : Bool} (hw : s.calls[j]? = some w)
    (hb : w.blocked = true) :
    Covered (fun k => g k + if w.kind.consumes = k then 1 else 0) (s.move j w (.awakened t)) := by
  have hawake : w.awake = false := by rw [Call.awake, Call.blocked_phase hb]
  have hnotifies : w.notifies = false := by rw [Call.notifies, Call.blocked_phase hb]
  have h₁ : ({ w with phase := .awakened t } : Call α).blocked = false := rfl
  have h₂ : ({ w with phase := .awakened t } : Call α).awake = true := rfl
  have h₃ : ({ w with phase := .awakened t } : Call α).notifies = false := rfl
  refine h.move hw s.queue s.log (fun b a hbefore hafter => ?_) (fun _ => ?_)
  · rw [hb, hawake] at hbefore
    rw [h₂, if_pos rfl]
    have := hbefore (Nat.succ_pos b)
    simpa using this
  · have hne : w.kind.consumes ≠ !w.kind.consumes := by cases w.kind.consumes <;> decide
    rw [hnotifies, h₃, if_neg hne, Nat.add_zero]

theorem wake_effects {i : ℕ} {w : Call α} {t : Bool} (hb : w.blocked = true) (l : List (Effect α))
    (hl : w.Effects i l) : ({ w with phase := .awakened t } : Call α).Effects i l := by
  unfold Call.Effects at hl
  rw [Call.blocked_phase hb] at hl
  exact hl

theorem wake_inv (h : QueueInv f s) {j : ℕ} {w : Call α} {t : Bool} (hw : s.calls[j]? = some w)
    (hb : w.blocked = true) (ht : t = true → w.kind.timed = true) : QueueInv f (s.move j w (.awakened t)) := by
  refine move_inv h hw (wake_effects hb) ht fun k hk => ?_
  have := wake_covered h.covered (t := t) hw hb k hk
  dsimp only at this
  omega

/-- The call that has notified returns.  The calls of the other side lose one that was about to wake them, unless none of
them waits: `g` may be one less for them. -/
theorem return_covered {g : Bool → ℕ} (h : Covered g s) {i : ℕ} {c : Call α} {popped : Option α}
    (hc : s.calls[i]? = some c) (hp : c.phase = .notifying popped) {g' : Bool → ℕ}
    (hown : g' c.kind.consumes ≤ g c.kind.consumes)
    (hother : 0 < s.count (!c.kind.consumes) Call.blocked → g' (!c.kind.consumes) + 1 ≤ g (!c.kind.consumes)) :
    Covered g' (s.move i c (.returned true popped)) := by
  have hb : c.blocked = false := by rw [Call.blocked, hp]
  have ha : c.awake = false := by rw [Call.awake, hp]
  have hn : c.notifies = true := by rw [Call.notifies, hp]
  have h₁ : ({ c with phase := .returned true popped } : Call α).blocked = false := rfl
  have h₂ : ({ c with phase := .returned true popped } : Call α).awake = false := rfl
  have h₃ : ({ c with phase := .returned true popped } : Call α).notifies = false := rfl
  refine h.move hc s.queue s.log (fun b a hbefore hafter => ?_) (fun hpos => ?_)
  · rw [hb, ha] at hbefore
    rw [h₁] at hafter
    rw [h₂]
    exact hown.trans (hbefore hafter)
  · rw [hn, h₃]
    exact hother hpos

theorem return_effects {i : ℕ} {c : Call α} {popped : Option α} (hp : c.phase = .notifying popped)
    (l : List (Effect α)) (hl : c.Effects i l) :
    ({ c with phase := .returned true popped } : Call α).Effects i l := by
  unfold Call.Effects at hl
  rw [hp] at hl
  exact hl

/-- **Every step keeps the invariant.** -/
theorem step_inv (h : QueueInv f s) (hcap : 0 < f.capacity) {a : QueueStep α} (hs : Steps f s a s') :
    ∃ f', f'.capacity = f.capacity ∧ QueueInv f' s' := by
  cases hs with
  | call => exact ⟨f, rfl, call_inv h _⟩
  | wait hc hr hk hno => exact ⟨f, rfl, wait_inv h hc hr hno⟩
  | insert hc hr hk hq hfull => exact ⟨f.push _, Fifo.capacity_push .., insert_inv h hcap hc hr hk hq hfull⟩
  | remove hc hr hk hitems hq => exact ⟨f.pop, rfl, remove_inv h hc hr hk hitems hq⟩
  | @notifyNone i c popped hc hp hw =>
    -- nobody waits for the notification
    refine ⟨f, rfl, move_inv h hc (return_effects hp) (fun hover => Bool.noConfusion hover) (return_covered h.covered hc hp le_rfl fun hpos => ?_)⟩
    obtain ⟨w, hmem, hside⟩ := List.countP_pos_iff.1 hpos
    have hnone := hw w hmem
    rw [Call.side, Bool.and_eq_true, beq_iff_eq] at hside
    rw [State.waitsFor, hside.1, hside.2] at hnone
    cases hk : c.kind.consumes <;> rw [hk] at hnone <;> exact absurd hnone (by decide)
  | @notifyOne i j c w popped t hc hp hw hwait ht =>
    rw [State.waitsFor, Bool.and_eq_true] at hwait
    obtain ⟨hb, hside⟩ := hwait
    have hne : i ≠ j := by
      rintro rfl
      obtain rfl := Option.some.inj (hc.symm.trans hw)
      rw [Call.blocked_phase hb] at hp
      cases hp
    have hwk : w.kind.consumes = !c.kind.consumes := by
      revert hside
      cases w.kind.consumes <;> cases c.kind.consumes <;> decide
    -- the call that is woken goes first
    have hcomm : (s.move i c (.returned true popped)).move j w (.awakened t) =
        (s.move j w (.awakened t)).move i c (.returned true popped) := by
      simp only [State.move, List.set_comm _ _ hne]
    have hc' : (s.move j w (.awakened t)).calls[i]? = some c := (List.getElem?_set_ne hne.symm).trans hc
    rw [hcomm]
    refine ⟨f, rfl, move_inv (wake_inv h hw hb ht) hc' (return_effects hp) (fun hover => Bool.noConfusion hover)
      (return_covered (wake_covered h.covered hw hb) hc' hp (Nat.le_add_right _ _) fun _ => ?_)⟩
    rw [if_pos hwk]
  | wake hw hb ht => exact ⟨f, rfl, wake_inv h hw hb ht⟩

end Inv

/-! ## The guarantees -/

/-- **The guarantees** of a queue of the capacity `capacity` in a state. -/
structure BlockingSpec (capacity : ℕ) (s : State α) : Prop where
  /-- Items leave in the order in which they were inserted, each once: those that have left are the first ones, and the
  rest is what the queue holds. -/
  order : ∃ items, s.log.filterMap Effect.inserted? = s.log.filterMap Effect.removed? ++ items ∧
    s.queue.size = items.length ∧
    ∀ i item, items[i]? = some item → (s.queue.atIndex i : Outcome VectorError α) = .ok item
  /-- As long as the counter has not wrapped, every inserted item has been dequeued, is in the queue or is counted. -/
  count : (s.log.filterMap Effect.dropped?).length < 2 ^ 64 → (s.log.filterMap Effect.inserted?).length =
    (s.log.filterMap Effect.dequeued?).length + s.queue.size + s.queue.overrunCounter
  /-- An item is dropped by `enqueue_nowait` only, where the queue is full, and it is the oldest one. -/
  drops : ∀ log₁ i x log₂, s.log = log₁ ++ Effect.dropped i x :: log₂ →
    (∃ item phase, s.calls[i]? = some ⟨.enqueueNowait item, phase⟩) ∧ ∃ rest,
      log₁.filterMap Effect.inserted? = log₁.filterMap Effect.removed? ++ x :: rest ∧ rest.length + 1 = capacity
  /-- What each call has done; one that has failed has done nothing. -/
  effects : ∀ (i : ℕ) (c : Call α), s.calls[i]? = some c → c.Effects i (s.log.filter fun e => e.call == i)
  /-- A call fails only where its time is over and what it waits for is not there. -/
  fails : ∀ a s', s.step a = some (.ok s') → ∀ (i : ℕ) (c : Call α) popped, s'.calls[i]? = some c →
    c.phase = .returned false popped → s.calls[i]? = some c ∨
      a = .lock i ∧ s.calls[i]? = some { c with phase := .awakened true } ∧ c.kind.timed = true ∧
        if c.kind.consumes then s.queue.empty = true else (s.queue.full : Outcome VectorError Bool) = .ok true
  /-- A call whose time is over has a limit of time. -/
  timed : ∀ c ∈ s.calls, c.overdue = true → c.kind.timed = true
  /-- The queue is changed by the effects of the call that has the lock, and by nothing else. -/
  changed : ∀ a s', s.step a = some (.ok s') → s'.queue = s.queue ∧ s'.log = s.log ∨
    ∃ i es, a = .lock i ∧ es ≠ [] ∧ s'.log = s.log ++ es ∧ ∀ e ∈ es, e.call = i
  /-- No wake-up of a consumer is lost. -/
  consumers : s.queue.empty = false → (∃ c ∈ s.calls, c.blocked = true ∧ c.kind.consumes = true) →
    ∃ c ∈ s.calls, c.awake = true ∧ c.kind.consumes = true ∨ c.notifies = true ∧ c.kind.consumes = false
  /-- No wake-up of a producer is lost. -/
  producers : (s.queue.full : Outcome VectorError Bool) = .ok false →
    (∃ c ∈ s.calls, c.blocked = true ∧ c.kind.consumes = false) →
    ∃ c ∈ s.calls, c.awake = true ∧ c.kind.consumes = false ∨ c.notifies = true ∧ c.kind.consumes = true

section Spec

variable {f : Fifo α} {s : State α}

theorem count_pos {k : Bool} {p : Call α → Bool} : 0 < s.count k p ↔ ∃ c ∈ s.calls, p c = true ∧ c.kind.consumes = k := by
  simp [State.count, List.countP_pos_iff, Call.side]

theorem QueueInv.woken (h : QueueInv f s) {k : Bool} (hav : 0 < f.available k)
    (hw : ∃ c ∈ s.calls, c.blocked = true ∧ c.kind.consumes = k) :
    ∃ c ∈ s.calls, c.awake = true ∧ c.kind.consumes = k ∨ c.notifies = true ∧ c.kind.consumes = !k := by
  have hsum := h.covered k (count_pos.2 hw)
  rcases Nat.eq_zero_or_pos (s.count k Call.awake) with h0 | hpos
  · obtain ⟨c, hc, hn⟩ := count_pos.1 (by omega : 0 < s.count (!k) Call.notifies)
    exact ⟨c, hc, .inr hn⟩
  · obtain ⟨c, hc, ha⟩ := count_pos.1 hpos
    exact ⟨c, hc, .inl ha⟩

theorem step_changed {a : QueueStep α} {s' : State α} (hs : Steps f s a s') :
    s'.queue = s.queue ∧ s'.log = s.log ∨
      ∃ i es, a = .lock i ∧ es ≠ [] ∧ s'.log = s.log ++ es ∧ ∀ e ∈ es, e.call = i := by
  cases hs with
  | call => exact .inl ⟨rfl, rfl⟩
  | wait => exact .inl ⟨rfl, rfl⟩
  | @insert i c t item queue =>
    refine .inr ⟨i, _, rfl, by simp, rfl, fun e he => ?_⟩
    rcases List.mem_append.1 he with he | he
    · unfold State.lost at he
      split at he
      · rw [List.mem_singleton.1 he]
        rfl
      · cases he
    · rw [List.mem_singleton.1 he]
      rfl
  | @remove i c t item items queue => exact .inr ⟨i, _, rfl, by simp, rfl, by simp [Effect.call]⟩
  | notifyNone => exact .inl ⟨rfl, rfl⟩
  | notifyOne => exact .inl ⟨rfl, rfl⟩
  | wake => exact .inl ⟨rfl, rfl⟩

/-- A call that goes on to another phase has not failed. -/
theorem failed_of_move {queue : CircularQueue α} {log : List (Effect α)} {i j : ℕ} {c d : Call α} {phase : Phase α}
    {popped : Option α} (hp : c.phase = .returned false popped) (hphase : ∀ popped, phase ≠ .returned false popped)
    (hc : (State.move { s with queue, log } j d phase).calls[i]? = some c) : s.calls[i]? = some c := by
  rw [State.move, List.getElem?_set] at hc
  split at hc
  · split at hc
    · cases hc
      exact absurd hp (hphase popped)
    · cases hc
  · exact hc

/-- A call that does not wait any more fails: its time is over, and what it has waited for is not there. -/
theorem wait_fails (h : QueueInv f s) {i j : ℕ} {c d : Call α} {t : Bool} {popped : Option α}
    (hp : c.phase = .returned false popped) (hd : s.calls[j]? = some d) (hr : d.Ready t)
    (hno : if d.kind.consumes then f.items = [] else f.items.length = f.capacity)
    (hc : (s.wait j d t).calls[i]? = some c) : s.calls[i]? = some c ∨
      j = i ∧ s.calls[i]? = some { c with phase := .awakened true } ∧ c.kind.timed = true ∧
        if c.kind.consumes then s.queue.empty = true else (s.queue.full : Outcome VectorError Bool) = .ok true := by
  cases t with
  | false =>
    have hne (popped : Option α) : Phase.blocked ≠ .returned false popped := by simp
    exact .inl (failed_of_move hp hne hc)
  | true =>
    rw [State.wait, State.move, List.getElem?_set] at hc
    split at hc
    · next hji =>
      subst hji
      split at hc
      · cases hc
        have hphase : d.phase = .awakened true := hr.resolve_left fun hstart => Bool.noConfusion hstart.2
        refine .inr ⟨rfl, ?_, h.timed d (List.mem_of_getElem? hd) hr.overdue, ?_⟩
        · rw [← hphase]
          exact hd
        · show if d.kind.consumes then _ else _
          split
          · next hcons =>
            rw [if_pos hcons] at hno
            exact h.holds.empty_iff.2 hno
          · next hcons =>
            rw [if_neg hcons] at hno
            rw [h.holds.full_eq, decide_eq_true hno]
      · cases hc
    · exact .inl hc

/-- A call that has just failed was a timed one, whose time was over while the predicate was false. -/
theorem step_fails (h : QueueInv f s) {a : QueueStep α} {s' : State α} (hs : Steps f s a s') {i : ℕ} {c : Call α}
    {popped : Option α} (hc : s'.calls[i]? = some c) (hp : c.phase = .returned false popped) : s.calls[i]? = some c ∨
      a = .lock i ∧ s.calls[i]? = some { c with phase := .awakened true } ∧ c.kind.timed = true ∧
        if c.kind.consumes then s.queue.empty = true else (s.queue.full : Outcome VectorError Bool) = .ok true := by
  cases hs with
  | call =>
    rw [List.getElem?_append] at hc
    split at hc
    · exact .inl hc
    · obtain rfl := List.mem_singleton.1 (List.mem_of_getElem? hc)
      cases hp
  | wait hd hr hk hno =>
    refine (wait_fails h hp hd hr hno hc).imp_right ?_
    rintro ⟨rfl, hfails⟩
    exact ⟨rfl, hfails⟩
  | insert => exact .inl (failed_of_move hp (fun _ => by simp) hc)
  | remove => exact .inl (failed_of_move hp (fun _ => by simp) hc)
  | notifyNone => exact .inl (failed_of_move hp (fun _ => by simp) hc)
  | @notifyOne j k d w popped' t hd hd' hw hwait ht =>
    -- two calls go on: the one that is notified, and the one that notifies
    have hne (popped : Option α) : Phase.awakened t ≠ .returned false popped := by simp
    have hmoved := failed_of_move (s := s.move j d (.returned true popped')) hp hne hc
    exact .inl (failed_of_move hp (fun _ => by simp) hmoved)
  | wake => exact .inl (failed_of_move hp (fun _ => by simp) hc)

theorem QueueInv.spec (h : QueueInv f s) : BlockingSpec f.capacity s where
  order := by
    refine ⟨f.items, h.legal.order, h.holds.size_eq, fun i item hitem => ?_⟩
    obtain ⟨hi, rfl⟩ := List.getElem?_eq_some_iff.1 hitem
    exact h.holds.atIndex_eq i hi
  count := fun hlt => by
    rw [h.legal.length, h.holds.size_eq, h.holds.overrun, h.dropped, Nat.mod_eq_of_lt hlt]
  drops := fun log₁ i x log₂ hlog => by
    obtain ⟨⟨c, hc, hnw⟩, hrest⟩ := h.legal.drop log₁ i x log₂ hlog
    obtain ⟨kind, phase⟩ := c
    cases kind with
    | enqueueNowait item => exact ⟨⟨item, phase, hc⟩, hrest⟩
    | _ => cases hnw
  effects := h.effects
  fails := fun a s' hs i c popped hc hp => by
    obtain ⟨s'', hok, hsteps⟩ := step_cases h.holds hs
    cases hok
    exact step_fails h hsteps hc hp
  timed := h.timed
  changed := fun a s' hs => by
    obtain ⟨s'', hok, hsteps⟩ := step_cases h.holds hs
    cases hok
    exact step_changed hsteps
  consumers := fun hempty hw => by
    refine h.woken (List.length_pos_iff.2 fun hnil => ?_) hw
    rw [h.holds.empty_iff.2 hnil] at hempty
    cases hempty
  producers := fun hfull hw => by
    refine h.woken (Nat.sub_pos_of_lt ?_) hw
    rw [h.holds.full_eq] at hfull
    have hne : f.items.length ≠ f.capacity := by simpa using hfull
    exact Nat.lt_of_le_of_ne f.bounded hne

end Spec

theorem start_inv {queue : CircularQueue α} {capacity : ℕ} (hq : Holds queue (.start capacity)) :
    QueueInv (.start capacity) ⟨queue, [], []⟩ where
  holds := hq
  legal := .start
  dropped := rfl
  effects := fun i c hc => by simp at hc
  made := fun e he => by simp at he
  timed := fun c hc => by simp at hc
  covered := fun k hk => by simp [State.count] at hk

/-- **The bounded blocking queue** in every interleaving of calls, with time-outs and spurious wake-ups anywhere: no step
is undefined, and the guarantees hold in every state.  The capacity is an `unsigned`, and the constructor has not
thrown. -/
theorem blockingQueue_spec [Inhabited α] (maxSize capacity : ℕ) (hmax : maxSize < 2 ^ 63) (hpos : 1 ≤ capacity)
    (hlt : capacity < 2 ^ 32) (queue : CircularQueue α) (hq : CircularQueue.construct maxSize capacity = .ok queue) :
    ∀ t r, (blockingQueue queue).run t = some r → ∃ s, r = .ok s ∧ BlockingSpec capacity s := by
  have hle : capacity + 1 ≤ maxSize := by
    by_contra hno
    rw [CircularQueue.construct, sizeAdd_of_lt (by omega)] at hq
    rw [if_neg hno] at hq
    cases hq
  obtain ⟨queue', hq', hholds⟩ := Holds.construct (α := α) hmax hle
  obtain rfl : queue' = queue := Outcome.ok.inj (hq'.symm.trans hq)
  have hinv : ∀ t r, (blockingQueue queue').run t = some r →
      ∃ s, r = .ok s ∧ ∃ f : Fifo α, f.capacity = capacity ∧ QueueInv f s := by
    refine Machine.invariant
      (I := fun _ (r : Outcome VectorError (State α)) => ∃ s, r = .ok s ∧ ∃ f : Fifo α, f.capacity = capacity ∧ QueueInv f s) ?_ ?_
    · exact ⟨_, rfl, _, rfl, start_inv hholds⟩
    · rintro t r a r' _ ⟨s, rfl, f, hf, h⟩ hstep
      obtain ⟨s', rfl, hsteps⟩ := step_cases h.holds hstep
      obtain ⟨f', hf', h'⟩ := step_inv h (by omega) hsteps
      exact ⟨s', rfl, f', hf'.trans hf, h'⟩
  intro t r hr
  obtain ⟨s, rfl, f, rfl, h⟩ := hinv t r hr
  exact ⟨s, rfl, h.spec⟩

/-- Two consumers wait, one of them gives up, an item overruns another one, and the other consumer is notified. -/
def waitingRun : List (QueueStep ℕ) :=
  [.call .dequeue, .call .dequeueFor, .lock 0, .lock 1, .wake 1 true, .lock 1, .call (.enqueueNowait 5),
    .call (.enqueueNowait 6), .lock 2, .lock 3, .notify 2 (some (0, false)), .lock 0, .notify 0 none, .notify 3 none]

theorem blockingQueue_spec_run : ∃ s, (blockingQueue (α := ℕ) ⟨2, 0, 0, 0, [0, 0]⟩).run waitingRun = some (.ok s) ∧
    s.log = [.inserted 2 5, .dropped 3 5, .inserted 3 6, .dequeued 0 6] ∧ BlockingSpec 1 s := by
  obtain ⟨s, hs, hspec⟩ := blockingQueue_spec 8 1 (by decide) (by decide) (by decide)
    (⟨2, 0, 0, 0, [0, 0]⟩ : CircularQueue ℕ) rfl waitingRun _ rfl
  cases hs
  exact ⟨_, rfl, rfl, hspec⟩

end Nessus.Memory
