import Nessus.Memory.CachingSpec

/-!
# The caching allocator and the streams

A cached block may still be in use by its stream: another stream gets it only when its event is ready.  But the event is
recorded after the block has been cached, outside of the lock, or not at all if that fails; and it is ready if its query fails.

* `State.unordered` — a search takes a block for another stream before its event tells, or the event is not recorded;
* `Streams` — what is pending on a block is on its stream, and what is pending on a cached block is before its event;
* `cachingAllocator_streams` — without such steps, what is pending on the memory of a caller is on the stream of the caller.
-/

namespace Nessus.Memory.Caching

open Nessus.Lib

/-! ## Work on a block -/

/-- Pending, and on the memory of the block. -/
def Cuda.PendingOn (c : Cuda) (b : Block) (w : Work) : Prop := c.Pending w ∧ w.stream.1 = b.device ∧ w.ptr = b.dPtr

/-- The event was recorded behind the work. -/
def Cuda.Covers (c : Cuda) (event : ℕ) (w : Work) : Prop := ∃ n, c.recorded event = some (w.stream, n) ∧ w.index < n

/-- What holds of the runtime alone: work is on memory that is allocated. -/
structure Cuda.Fine (c : Cuda) : Prop where
  launched : ∀ w ∈ c.works, w.index < c.launched w.stream
  held : ∀ w, c.Pending w → ∃ m ∈ c.held, m.device = w.stream.1 ∧ m.ptr = w.ptr

/-- No more is pending than before, and nothing is submitted or recorded. -/
structure Cuda.Shrinks (c c' : Cuda) : Prop where
  launched : c'.launched = c.launched
  recorded : c'.recorded = c.recorded
  nextEvent : c'.nextEvent = c.nextEvent
  pending : ∀ w, c'.Pending w → c.Pending w

section Runtime

variable {c c' : Cuda} {w : Work} {b : Block}

theorem Cuda.Shrinks.refl (c : Cuda) : c.Shrinks c := ⟨rfl, rfl, rfl, fun _ hw => hw⟩

theorem Cuda.Shrinks.trans {c'' : Cuda} (h : c.Shrinks c') (h' : c'.Shrinks c'') : c.Shrinks c'' :=
  ⟨h'.launched.trans h.launched, h'.recorded.trans h.recorded, h'.nextEvent.trans h.nextEvent,
    fun w hw => h.pending w (h'.pending w hw)⟩

/-- An event that is ready is behind nothing that is pending. -/
theorem Cuda.Covers.not_pending {event : ℕ} (h : c.Covers event w) (hquery : c.queryFails event = false)
    (hready : c.ready event = true) : ¬ c.Pending w := by
  obtain ⟨n, hrecorded, hlt⟩ := h
  rintro ⟨-, hfinished⟩
  rw [Cuda.ready, hquery, Bool.false_or, hrecorded] at hready
  have hle := of_decide_eq_true hready
  omega

theorem Cuda.Fine.free (h : c.Fine) (m : DeviceMemory) : (c.free m).Fine ∧ c.Shrinks (c.free m) := by
  have hpending {w : Work} (hw : (c.free m).Pending w) : c.Pending w ∧ w.stream.1 ≠ m.device := by
    obtain ⟨hmem, hle⟩ := hw
    replace hle : (if w.stream.1 = m.device then c.launched w.stream else c.finished w.stream) ≤ w.index := hle
    have hlt := h.launched w hmem
    split at hle
    · omega
    · next hne => exact ⟨⟨hmem, hle⟩, hne⟩
  refine ⟨⟨h.launched, fun w hw => ?_⟩, rfl, rfl, rfl, fun w hw => (hpending hw).1⟩
  obtain ⟨hw, hne⟩ := hpending hw
  obtain ⟨m', hm', hdevice, hptr⟩ := h.held w hw
  refine ⟨m', (List.mem_erase_of_ne ?_).2 hm', hdevice, hptr⟩
  rintro rfl
  exact hne hdevice.symm

theorem Cuda.Fine.finish (h : c.Fine) (stream : ℤ × ℕ) : (c.finish stream).Fine ∧ c.Shrinks (c.finish stream) := by
  have hpending {w : Work} (hw : (c.finish stream).Pending w) : c.Pending w := by
    obtain ⟨hmem, hle⟩ := hw
    replace hle : Function.update c.finished stream (c.finished stream + 1) w.stream ≤ w.index := hle
    refine ⟨hmem, ?_⟩
    by_cases hs : w.stream = stream
    · subst hs
      rw [Function.update_self] at hle
      omega
    · rwa [Function.update_of_ne hs] at hle
  exact ⟨⟨h.launched, fun w hw => h.held w (hpending hw)⟩, rfl, rfl, rfl, fun _ hw => hpending hw⟩

theorem freeFirst_fine (l : List Block) {s : State} (h : s.cuda.Fine) :
    (l.foldl State.freeFirst s).cuda.Fine ∧ s.cuda.Shrinks (l.foldl State.freeFirst s).cuda := by
  induction l generalizing s with
  | nil => exact ⟨h, Cuda.Shrinks.refl _⟩
  | cons block l ih =>
    obtain ⟨hfine, hshrinks⟩ := h.free block.memory
    obtain ⟨hfine', hshrinks'⟩ := ih (s := s.freeFirst block) hfine
    exact ⟨hfine', hshrinks.trans hshrinks'⟩

end Runtime

/-! ## The calls -/

/-- The block that no one has used yet. -/
def Call.fresh : Call → Multiset Block
  | creating _ key => {key}
  | inserting _ block => {block}
  | _ => 0

/-- A block that some call has and no one has used yet. -/
def FreshIn (calls : List Call) (b : Block) : Prop := ∃ c ∈ calls, b ∈ c.fresh

/-- The call has still to record the event. -/
def Call.records (event : ℕ) : Call → Bool
  | recording block => block.readyEvent == event
  | _ => false

/-- The search of the call takes a block from another stream, whose event has still to be recorded or cannot be queried; or
`DeviceFree` does not get to record the event. -/
def State.unordered (s : State) : Label → Bool
  | .go i =>
    match s.calls[i]? with
    | some (.searching _ key) =>
      match s.search key with
      | some found => found.associatedStream != key.associatedStream &&
        (s.calls.any (·.records found.readyEvent) || s.cuda.queryFails found.readyEvent)
      | none => false
    | _ => false
  | .error i =>
    match s.calls[i]? with
    | some (.recording _) => true
    | _ => false
  | _ => false

section Calls

variable {calls : List Call} {i : ℕ} {c c' : Call} {b : Block}

theorem freshIn_set (hc : calls[i]? = some c) (hle : c'.fresh ≤ c.fresh) (h : FreshIn (calls.set i c') b) : FreshIn calls b := by
  obtain ⟨d, hd, hb⟩ := h
  rcases List.mem_or_eq_of_mem_set hd with hd | rfl
  · exact ⟨d, hd, hb⟩
  · exact ⟨c, List.mem_of_getElem? hc, Multiset.mem_of_le hle hb⟩

theorem recording_set (hc : calls[i]? = some c) (hne : c ≠ .recording b) (h : .recording b ∈ calls) :
    .recording b ∈ calls.set i c' := by
  obtain ⟨j, hj⟩ := List.mem_iff_getElem?.1 h
  refine List.mem_of_getElem? (i := j) ?_
  rw [List.getElem?_set_ne, hj]
  rintro rfl
  rw [hc, Option.some_inj] at hj
  exact hne hj

theorem recording_of_set (hne : c' ≠ .recording b) (h : .recording b ∈ calls.set i c') : .recording b ∈ calls :=
  (List.mem_or_eq_of_mem_set h).resolve_right hne.symm

end Calls

/-! ## The invariant -/

/-- Blocks are used on their streams. -/
structure Streams (s : State) : Prop where
  fine : s.cuda.Fine
  fresh (b : Block) (w : Work) : FreshIn s.calls b → ¬ s.cuda.PendingOn b w
  live (b : Block) (w : Work) : b ∈ s.liveBlocks → s.cuda.PendingOn b w → w.stream = b.stream
  cached (b : Block) (w : Work) : b ∈ s.cachedBlocks → s.cuda.PendingOn b w → w.stream = b.stream ∧
    ((∃ c, .recording c ∈ s.calls ∧ c.readyEvent = b.readyEvent) ∨ s.cuda.Covers b.readyEvent w)
  created (b : Block) : b ∈ s.placed → b.readyEvent < s.cuda.nextEvent
  apart : (s.placed.map Block.readyEvent).Nodup
  recording (c : Block) : .recording c ∈ s.calls → c.readyEvent < s.cuda.nextEvent ∧
    ∀ b ∈ s.placed, b.readyEvent = c.readyEvent → b.stream = c.stream

namespace Inv

variable {s : State} {b : Block}

theorem cached_not_live (h : Inv s) (hb : b ∈ s.cachedBlocks) : b ∉ s.liveBlocks := by
  have hnodup := Multiset.nodup_of_le (lists_le s) (h.nodup.of_map _)
  exact fun hlive => Multiset.disjoint_left.1 (Multiset.nodup_add.1 hnodup).2.2 hlive hb

/-- A block that no one has used is in the hand of a call. -/
theorem fresh_mem (hb : FreshIn s.calls b) : b ∈ s.hands + s.bare := by
  obtain ⟨c, hc, hb⟩ := hb
  have hhand := List.single_le_sum (M := Multiset Block) (l := s.calls.map Call.hand) (fun _ _ => Multiset.zero_le _)
    _ (List.mem_map_of_mem hc)
  have hbare := List.single_le_sum (M := Multiset Block) (l := s.calls.map Call.bare) (fun _ _ => Multiset.zero_le _)
    _ (List.mem_map_of_mem hc)
  rw [Multiset.mem_add]
  cases c with
  | creating request key => exact .inr (Multiset.mem_of_le hbare hb)
  | inserting request block => exact .inl (Multiset.mem_of_le hhand hb)
  | _ => cases hb

theorem fresh_not_live (h : Inv s) (hb : FreshIn s.calls b) : b ∉ s.liveBlocks := by
  have hsplit : s.placed + s.bare = ↑s.liveBlocks + (↑s.cachedBlocks + (s.hands + s.bare)) := by
    rw [State.placed, add_assoc, add_assoc]
  have hnodup := h.nodup.of_map _
  rw [hsplit] at hnodup
  exact fun hlive => Multiset.disjoint_left.1 (Multiset.nodup_add.1 hnodup).2.2 hlive
    (Multiset.mem_add.2 (.inr (fresh_mem hb)))

theorem fresh_place (hb : FreshIn s.calls b) : b ∈ s.placed + s.bare := by
  have hmem := fresh_mem hb
  rw [State.placed, add_assoc]
  exact Multiset.mem_add.2 (.inr hmem)

end Inv

namespace Streams

variable {s s' : State} {i request : ℕ} {c c' : Call} {key block found : Block}

/-- A cached block, as long as no record of its event is dropped. -/
theorem cached_of (h : Streams s) {b : Block} {w : Work} {calls : List Call} (hb : b ∈ s.cachedBlocks)
    (hw : s.cuda.PendingOn b w) (hrecording : ∀ c, .recording c ∈ s.calls → .recording c ∈ calls) :
    w.stream = b.stream ∧
      ((∃ c, .recording c ∈ calls ∧ c.readyEvent = b.readyEvent) ∨ s.cuda.Covers b.readyEvent w) := by
  obtain ⟨hstream, hevent⟩ := h.cached b w hb hw
  exact ⟨hstream, hevent.imp_left fun ⟨c, hc, heq⟩ => ⟨c, hrecording c hc, heq⟩⟩

/-- Where nothing is used and nothing moves to the lists. -/
theorem mono (h : Streams s) (hfine : s'.cuda.Fine) (hcuda : s.cuda.Shrinks s'.cuda) (hplaced : s'.placed ≤ s.placed)
    (hlive : ∀ b ∈ s'.liveBlocks, b ∈ s.liveBlocks) (hcached : ∀ b ∈ s'.cachedBlocks, b ∈ s.cachedBlocks)
    (hfresh : ∀ b, FreshIn s'.calls b → FreshIn s.calls b)
    (hrecording : ∀ b, .recording b ∈ s'.calls ↔ .recording b ∈ s.calls) : Streams s' where
  fine := hfine
  fresh b w hb hw := h.fresh b w (hfresh b hb) ⟨hcuda.pending w hw.1, hw.2⟩
  live b w hb hw := h.live b w (hlive b hb) ⟨hcuda.pending w hw.1, hw.2⟩
  cached b w hb hw := by
    obtain ⟨hstream, hevent⟩ := h.cached_of (hcached b hb) ⟨hcuda.pending w hw.1, hw.2⟩ fun c => (hrecording c).2
    refine ⟨hstream, hevent.imp_right ?_⟩
    rintro ⟨n, hn, hlt⟩
    exact ⟨n, (congrFun hcuda.recorded _).trans hn, hlt⟩
  created b hb := hcuda.nextEvent ▸ h.created b (Multiset.mem_of_le hplaced hb)
  apart := Multiset.nodup_of_le (Multiset.map_le_map hplaced) h.apart
  recording c hc := by
    obtain ⟨hlt, hall⟩ := h.recording c ((hrecording c).1 hc)
    exact ⟨hcuda.nextEvent ▸ hlt, fun b hb => hall b (Multiset.mem_of_le hplaced hb)⟩

theorem call (h : Streams s) {c : Call} (hfresh : c.fresh = 0) (hhand : c.hand = 0) (hrec : ∀ b, c ≠ .recording b) :
    Streams { s with calls := s.calls ++ [c] } := by
  refine h.mono h.fine (Cuda.Shrinks.refl _) (le_of_eq ?_) (fun b hb => hb) (fun b hb => hb) ?_ fun b => ?_
  · refine placed_of_lists rfl rfl ?_
    simp [State.hands, hhand]
  · rintro b ⟨d, hd, hb⟩
    rcases List.mem_append.1 hd with hd | hd
    · exact ⟨d, hd, hb⟩
    · rw [List.mem_singleton.1 hd, hfresh] at hb
      cases hb
  · rw [List.mem_append, List.mem_singleton]
    exact or_iff_left (hrec b).symm

theorem moves (h : Streams s) (hc : s.calls[i]? = some c) (hfresh : c'.fresh ≤ c.fresh) (hhand : c'.hand = c.hand)
    (hold : ∀ b, c ≠ .recording b) (hnew : ∀ b, c' ≠ .recording b) : Streams (s.move i c') := by
  refine h.mono h.fine (Cuda.Shrinks.refl _) (le_of_eq ?_) (fun b hb => hb) (fun b hb => hb)
    (fun b => freshIn_set hc hfresh) fun b => ⟨recording_of_set (hnew b), recording_set hc (hold b)⟩
  have hset : (s.move i c').hands + c.hand = s.hands + c.hand := hands_set hc rfl rfl hhand
  exact placed_of_lists rfl rfl (add_right_cancel hset)

theorem deviceFree (h : Streams s) {owner : ℕ} (hc : s.calls[owner]? = some (.owning request block)) :
    Streams { s with calls := s.calls.set owner .finished ++ [.freeing block] } := by
  have hmoves : Streams (s.move owner .finished) :=
    h.moves hc (Multiset.zero_le _) rfl (by simp) (by simp)
  exact hmoves.call rfl rfl (by simp)

/-- **A cached block goes to a stream**: its own, or one that finds the event ready. -/
theorem reuse (h : Streams s) (hc : s.calls[i]? = some (.searching request key)) (hf : s.search key = some found)
    (hordered : s.unordered (.go i) = false) : Streams (s.reuse i request key found) := by
  obtain ⟨rest, hplaced, hplaced'⟩ := placed_reuse hc hf
  set block : Block := { found with associatedStream := key.associatedStream } with hblock
  have hfound : found ∈ s.placed := hplaced ▸ Multiset.mem_cons_self _ _
  have hrest {b : Block} (hb : b ∈ rest) : b ∈ s.placed := hplaced ▸ Multiset.mem_cons_of_mem hb
  have hcalls : (s.reuse i request key found).calls = s.calls.set i (.owning request block) := rfl
  have hsame (b : Block) : .recording b ∈ (s.reuse i request key found).calls ↔ .recording b ∈ s.calls :=
    ⟨recording_of_set (by simp), recording_set hc (by simp)⟩
  -- the event tells, where the block changes its stream
  have htells (hne : found.associatedStream ≠ key.associatedStream) :
      s.calls.any (·.records found.readyEvent) = false ∧ s.cuda.queryFails found.readyEvent = false := by
    rw [State.unordered, hc] at hordered
    simpa only [hf, Bool.and_eq_false_iff, bne_eq_false_iff_eq, hne, false_or, Bool.or_eq_false_iff] using hordered
  have hrecorded (hne : found.associatedStream ≠ key.associatedStream) {c : Block} (hmem : .recording c ∈ s.calls) :
      c.readyEvent ≠ found.readyEvent := by
    intro heq
    have hno := List.any_eq_false.1 (htells hne).1 _ hmem
    simp [Call.records, heq] at hno
  have hstream (heq : found.associatedStream = key.associatedStream) : block.stream = found.stream := by
    rw [Block.stream, Block.stream, ← heq]
  refine ⟨h.fine, fun b w hb => ?_, fun b w hb hw => ?_, fun b w hb hw => ?_, fun b hb => ?_, ?_, fun c hmem => ?_⟩
  · exact h.fresh b w (freshIn_set hc (Multiset.zero_le _) hb)
  · rcases List.mem_cons.1 ((List.perm_orderedInsert _ _ _).mem_iff.1 hb) with rfl | hb
    · obtain ⟨hw', hevent⟩ := h.cached found w (search_mem hf) hw
      by_cases heq : found.associatedStream = key.associatedStream
      · exact hw'.trans (hstream heq).symm
      · exfalso
        rcases hevent with ⟨c, hmem, hevent⟩ | hcovers
        · exact hrecorded heq hmem hevent
        · have husable := List.find?_some hf
          rw [State.usable, decide_eq_false (Ne.symm heq), Bool.false_or] at husable
          exact hcovers.not_pending (htells heq).2 husable hw.1
    · exact h.live b w hb hw
  · exact h.cached_of (List.mem_of_mem_erase hb) hw fun c => (hsame c).2
  · rw [hplaced'] at hb
    rcases Multiset.mem_cons.1 hb with rfl | hb
    · exact h.created found hfound
    · exact h.created b (hrest hb)
  · have hapart := h.apart
    rw [hplaced, Multiset.map_cons] at hapart
    rwa [hplaced', Multiset.map_cons]
  · obtain ⟨hlt, hall⟩ := h.recording c ((hsame c).1 hmem)
    refine ⟨hlt, fun b hb heq => ?_⟩
    rw [hplaced'] at hb
    rcases Multiset.mem_cons.1 hb with rfl | hb
    · by_cases hs : found.associatedStream = key.associatedStream
      · exact (hstream hs).trans (hall found hfound heq)
      · exact absurd heq.symm (hrecorded hs ((hsame c).1 hmem))
    · exact hall b (hrest hb) heq

theorem malloc (h : Streams s) {again : Bool} (hc : s.calls[i]? = some (.mallocing request key again)) {ptr : ℕ}
    (hd : ∀ m ∈ s.cuda.held, m.Disjoint { key with dPtr := ptr }.memory) :
    Streams (.move { s with cuda := s.cuda.malloc { key with dPtr := ptr }.memory } i
      (.creating request { key with dPtr := ptr })) := by
  set block : Block := { key with dPtr := ptr } with hblock
  set s' : State := .move { s with cuda := s.cuda.malloc block.memory } i (.creating request block) with hs'
  have hhands : s'.hands + 0 = s.hands + 0 := hands_set hc rfl rfl rfl
  have hplaced : s'.placed = s.placed := placed_of_lists rfl rfl (add_right_cancel hhands)
  have hsame (b : Block) : .recording b ∈ s'.calls ↔ .recording b ∈ s.calls :=
    ⟨recording_of_set (by simp), recording_set hc (by simp)⟩
  refine ⟨⟨h.fine.launched, fun w hw => ?_⟩, fun b w hb hw => ?_, h.live, fun b w hb hw => ?_, fun b hb => ?_, ?_,
    fun c hmem => ?_⟩
  · obtain ⟨m, hm, hmem⟩ := h.fine.held w hw
    exact ⟨m, List.mem_append_left _ hm, hmem⟩
  · obtain ⟨c, hmem, hb⟩ := hb
    rcases List.mem_or_eq_of_mem_set hmem with hmem | rfl
    · exact h.fresh b w ⟨c, hmem, hb⟩ hw
    · obtain rfl : b = block := Multiset.mem_singleton.1 hb
      obtain ⟨m, hm, hdevice, hptr⟩ := h.fine.held w hw.1
      exact (hd m hm (hdevice.trans hw.2.1)).1 (hptr.trans hw.2.2)
  · exact h.cached_of hb hw fun c => (hsame c).2
  · exact h.created b (hplaced ▸ hb)
  · exact hplaced ▸ h.apart
  · rw [hplaced]
    exact h.recording c ((hsame c).1 hmem)

/-- A block gets an event that no other one has. -/
theorem create (h : Streams s) (hc : s.calls[i]? = some (.creating request key)) :
    Streams (.move { s with cuda := s.cuda.createEvent } i (.inserting request { key with readyEvent := s.cuda.nextEvent })) := by
  set block : Block := { key with readyEvent := s.cuda.nextEvent } with hblock
  set s' : State := .move { s with cuda := s.cuda.createEvent } i (.inserting request block) with hs'
  have hplaced : s'.placed = block ::ₘ s.placed := placed_create hc
  have hsame (b : Block) : .recording b ∈ s'.calls ↔ .recording b ∈ s.calls :=
    ⟨recording_of_set (by simp), recording_set hc (by simp)⟩
  refine ⟨⟨h.fine.launched, h.fine.held⟩, fun b w hb hw => ?_, h.live, fun b w hb hw => ?_, fun b hb => ?_, ?_,
    fun c hmem => ?_⟩
  · obtain ⟨c, hmem, hb⟩ := hb
    rcases List.mem_or_eq_of_mem_set hmem with hmem | rfl
    · exact h.fresh b w ⟨c, hmem, hb⟩ hw
    · obtain rfl : b = block := Multiset.mem_singleton.1 hb
      exact h.fresh key w ⟨_, List.mem_of_getElem? hc, Multiset.mem_singleton_self key⟩ hw
  · exact h.cached_of hb hw fun c => (hsame c).2
  · rw [hplaced] at hb
    rcases Multiset.mem_cons.1 hb with rfl | hb
    · exact Nat.lt_succ_self _
    · exact (h.created b hb).trans (Nat.lt_succ_self _)
  · rw [hplaced, Multiset.map_cons, Multiset.nodup_cons]
    refine ⟨fun hmem => ?_, h.apart⟩
    obtain ⟨b, hb, heq⟩ := Multiset.mem_map.1 hmem
    exact (h.created b hb).ne heq
  · obtain ⟨hlt, hall⟩ := h.recording c ((hsame c).1 hmem)
    refine ⟨hlt.trans (Nat.lt_succ_self _), fun b hb heq => ?_⟩
    rw [hplaced] at hb
    rcases Multiset.mem_cons.1 hb with rfl | hb
    · exact absurd heq hlt.ne'
    · exact hall b hb heq

theorem insert (h : Streams s) (hc : s.calls[i]? = some (.inserting request block)) (hhand : c.hand = 0) (hfresh : c.fresh = 0)
    (hnew : ∀ b, c ≠ .recording b) : Streams (s.insert i block c) := by
  have hplaced := placed_insert hc hhand
  have hsame (b : Block) : .recording b ∈ (s.insert i block c).calls ↔ .recording b ∈ s.calls :=
    ⟨recording_of_set (hnew b), recording_set hc (by simp)⟩
  refine ⟨h.fine, fun b w hb => ?_, fun b w hb hw => ?_, fun b w hb hw => ?_, fun b hb => ?_, ?_, fun d hmem => ?_⟩
  · exact h.fresh b w (freshIn_set hc (hfresh ▸ Multiset.zero_le _) hb)
  · rcases List.mem_cons.1 ((List.perm_orderedInsert _ _ _).mem_iff.1 hb) with rfl | hb
    · exact absurd hw (h.fresh b w ⟨_, List.mem_of_getElem? hc, Multiset.mem_singleton_self b⟩)
    · exact h.live b w hb hw
  · exact h.cached_of hb hw fun d => (hsame d).2
  · exact h.created b (hplaced ▸ hb)
  · exact hplaced ▸ h.apart
  · rw [hplaced]
    exact h.recording d ((hsame d).1 hmem)

/-- What was pending on a live block is pending on its stream. -/
theorem recache (h : Streams s) (hc : s.calls[i]? = some (.freeing key)) (hf : s.findLive key = some block) :
    Streams (s.recache i block) := by
  have hplaced := placed_recache hc hf
  have hmem := findLive_mem hf
  have hblock : block ∈ s.placed := Multiset.mem_of_le (Multiset.le_add_right _ _) (Multiset.mem_add.2 (.inl hmem))
  have hself : .recording block ∈ (s.recache i block).calls :=
    List.mem_set (List.getElem?_eq_some_iff.1 hc).1 _
  refine ⟨h.fine, fun b w hb => ?_, fun b w hb hw => ?_, fun b w hb hw => ?_, fun b hb => ?_, ?_, fun c hrec => ?_⟩
  · exact h.fresh b w (freshIn_set hc (Multiset.zero_le _) hb)
  · exact h.live b w (List.mem_of_mem_erase hb) hw
  · rcases List.mem_cons.1 ((List.perm_orderedInsert _ _ _).mem_iff.1 hb) with rfl | hb
    · exact ⟨h.live b w hmem hw, .inl ⟨b, hself, rfl⟩⟩
    · exact h.cached_of hb hw fun c hrec => recording_set hc (by simp) hrec
  · exact h.created b (hplaced ▸ hb)
  · exact hplaced ▸ h.apart
  · rw [hplaced]
    rcases List.mem_or_eq_of_mem_set hrec with hrec | heq
    · exact h.recording c hrec
    · obtain rfl : c = block := Call.recording.inj heq
      refine ⟨h.created c hblock, fun b hb hevent => ?_⟩
      rw [Multiset.inj_on_of_nodup_map h.apart b hb c hblock hevent]

/-- The event is recorded behind all that uses the block. -/
theorem record (h : Streams s) (hc : s.calls[i]? = some (.recording block)) :
    Streams (.move { s with cuda := s.cuda.eventRecord block.readyEvent block.stream } i .finished) := by
  set s' : State := .move { s with cuda := s.cuda.eventRecord block.readyEvent block.stream } i .finished with hs'
  have hhands : s'.hands + 0 = s.hands + 0 := hands_set hc rfl rfl rfl
  have hplaced : s'.placed = s.placed := placed_of_lists rfl rfl (add_right_cancel hhands)
  have hless {b : Block} (hb : .recording b ∈ s'.calls) : .recording b ∈ s.calls := recording_of_set (by simp) hb
  have hrecorded : s'.cuda.recorded =
      Function.update s.cuda.recorded block.readyEvent (some (block.stream, s.cuda.launched block.stream)) := rfl
  have hown := h.recording block (List.mem_of_getElem? hc)
  refine ⟨⟨h.fine.launched, h.fine.held⟩, fun b w hb => ?_, h.live, fun b w hb hw => ?_, fun b hb => ?_, ?_,
    fun c hrec => ?_⟩
  · exact h.fresh b w (freshIn_set hc (Multiset.zero_le _) hb)
  · obtain ⟨hw', hevent⟩ := h.cached b w hb hw
    refine ⟨hw', ?_⟩
    by_cases heq : b.readyEvent = block.readyEvent
    · have hb' : b ∈ s.placed := by
        rw [State.placed]
        exact Multiset.mem_add.2 (.inl (Multiset.mem_add.2 (.inr hb)))
      have hstream : w.stream = block.stream := hw'.trans (hown.2 b hb' heq)
      refine .inr ⟨s.cuda.launched block.stream, ?_, hstream ▸ h.fine.launched w hw.1.1⟩
      rw [hrecorded, heq, Function.update_self, hstream]
    · rcases hevent with ⟨c, hrec, hcb⟩ | ⟨n, hn, hlt⟩
      · refine .inl ⟨c, recording_set hc ?_ hrec, hcb⟩
        intro hcall
        rw [Call.recording.inj hcall] at heq
        exact heq hcb.symm
      · refine .inr ⟨n, ?_, hlt⟩
        rw [hrecorded, Function.update_of_ne heq, hn]
  · exact h.created b (hplaced ▸ hb)
  · exact hplaced ▸ h.apart
  · rw [hplaced]
    exact h.recording c (hless hrec)

theorem launch (h : Streams s) (hinv : Inv s) (hc : s.calls[i]? = some (.owning request block)) :
    Streams { s with cuda := s.cuda.launch block.stream block.dPtr } := by
  have hlive : block ∈ s.liveBlocks := hinv.owned_mem hc (Multiset.mem_singleton_self block)
  have hplace : block ∈ s.placed + s.bare := Multiset.mem_of_le (Inv.live_le s) hlive
  have hpending {w : Work} (hw : (s.cuda.launch block.stream block.dPtr).Pending w) :
      s.cuda.Pending w ∨ w = ⟨block.stream, s.cuda.launched block.stream, block.dPtr⟩ := by
    obtain ⟨hmem, hle⟩ := hw
    rcases List.mem_append.1 hmem with hmem | hmem
    · exact .inl ⟨hmem, hle⟩
    · exact .inr (List.mem_singleton.1 hmem)
  -- what is new is on this block only
  have hon {b : Block} {w : Work} (hb : b ∈ s.placed + s.bare)
      (hw : (s.cuda.launch block.stream block.dPtr).PendingOn b w) :
      s.cuda.PendingOn b w ∨ b = block ∧ w.stream = block.stream := by
    obtain ⟨hw, hdevice, hptr⟩ := hw
    rcases hpending hw with hw | rfl
    · exact .inl ⟨hw, hdevice, hptr⟩
    · exact .inr ⟨hinv.eq_of_ptr hb hplace hdevice.symm hptr.symm, rfl⟩
  refine ⟨⟨fun w hmem => ?_, fun w hw => ?_⟩, fun b w hb hw => ?_, fun b w hb hw => ?_, fun b w hb hw => ?_, h.created,
    h.apart, h.recording⟩
  · have hlaunched : (s.cuda.launch block.stream block.dPtr).launched =
        Function.update s.cuda.launched block.stream (s.cuda.launched block.stream + 1) := rfl
    rw [hlaunched]
    rcases List.mem_append.1 hmem with hmem | hmem
    · have hlt := h.fine.launched w hmem
      by_cases hs : w.stream = block.stream
      · rw [hs] at hlt ⊢
        rw [Function.update_self]
        omega
      · rwa [Function.update_of_ne hs]
    · obtain rfl := List.mem_singleton.1 hmem
      rw [Function.update_self]
      exact Nat.lt_succ_self _
  · rcases hpending hw with hw | rfl
    · exact h.fine.held w hw
    · exact ⟨block.memory, hinv.mem_held hplace, rfl, rfl⟩
  · rcases hon (Inv.fresh_place hb) hw with hw | ⟨rfl, -⟩
    · exact h.fresh b w hb hw
    · exact hinv.fresh_not_live hb hlive
  · rcases hon (Multiset.mem_of_le (Inv.live_le s) hb) hw with hw | ⟨rfl, hw⟩
    · exact h.live b w hb hw
    · exact hw
  · rcases hon (Multiset.mem_of_le (Inv.cached_le s) hb) hw with hw | ⟨rfl, -⟩
    · exact h.cached b w hb hw
    · exact absurd hlive (hinv.cached_not_live hb)

theorem release (h : Streams s) (hc : s.calls[i]? = some (.releasing block)) (hhand : c.hand = 0) (hfresh : c.fresh = 0)
    (hnew : ∀ b, c ≠ .recording b) : Streams (.move { s with cuda := s.cuda.free block.memory } i c) := by
  obtain ⟨hfine, hshrinks⟩ := h.fine.free block.memory
  refine h.mono hfine hshrinks ?_ (fun b hb => hb) (fun b hb => hb)
    (fun b => freshIn_set hc (hfresh ▸ Multiset.zero_le _)) fun b => ⟨recording_of_set (hnew b), recording_set hc (by simp)⟩
  rw [placed_release hc hhand]
  exact Multiset.le_cons_self _ _

theorem lose (h : Streams s) (hc : s.calls[i]? = some (.releasing block)) : Streams (s.move i (.failed (some block))) := by
  refine h.mono h.fine (Cuda.Shrinks.refl _) ?_ (fun b hb => hb) (fun b hb => hb)
    (fun b => freshIn_set hc (Multiset.zero_le _)) fun b => ⟨recording_of_set (by simp), recording_set hc (by simp)⟩
  have hplaced : s.placed = block ::ₘ (s.move i (.failed (some block))).placed := placed_release hc rfl
  rw [hplaced]
  exact Multiset.le_cons_self _ _

theorem freeSome (h : Streams s) (n : ℕ) (hc : s.calls[i]? = some .freeingAll) (hhand : c.hand = 0) (hfresh : c.fresh = 0)
    (hnew : ∀ b, c ≠ .recording b) : Streams ((s.freeSome n).move i c) := by
  obtain ⟨hcalls, hlive, -⟩ := freeFirst_frame (s.cachedBlocks.take n) s
  obtain ⟨hfine, hshrinks⟩ := freeFirst_fine (s.cachedBlocks.take n) h.fine
  set s' : State := (s.freeSome n).move i c with hs'
  have hset : s'.calls = s.calls.set i c := congrArg (·.set i c) hcalls
  have hhands : s'.hands + 0 = s.hands + 0 := hands_set hc hset rfl hhand
  have hlive' : s'.liveBlocks = s.liveBlocks := hlive
  refine h.mono hfine hshrinks ?_ (fun b hb => hlive' ▸ hb) (fun b hb => List.mem_of_mem_drop hb) (fun b hb => ?_) fun b => ?_
  · have hcached : (↑s'.cachedBlocks : Multiset Block) ≤ ↑s.cachedBlocks :=
      Multiset.coe_le.2 (List.drop_sublist n _).subperm
    rw [State.placed, State.placed, hlive', add_right_cancel hhands]
    exact add_le_add_left (add_le_add_right hcached _) _
  · rw [hset] at hb
    exact freshIn_set hc (hfresh ▸ Multiset.zero_le _) hb
  · rw [hset]
    exact ⟨recording_of_set (hnew b), recording_set hc (by simp)⟩

end Streams

/-- **Every step keeps it**, if it is not out of order. -/
theorem effect_streams {cfg : Config} {s s' : State} {a : Label} (ha : a.spoils = false) (hordered : s.unordered a = false)
    (hinv : Inv s) (h : Streams s) (he : Effect cfg s a s') : Streams s' := by
  cases he with
  | limit => exact ⟨h.fine, h.fresh, h.live, h.cached, h.created, h.apart, h.recording⟩
  | @allocate device bytes stream key cached =>
    cases cached with
    | true => exact h.call rfl rfl (by simp)
    | false => exact h.call rfl rfl (by simp)
  | deviceFree hc => exact h.deviceFree hc
  | freeAllCached => exact h.call rfl rfl (by simp)
  | getDeviceError => exact h.call rfl rfl (by simp)
  | reuse hc hf => exact h.reuse hc hf hordered
  | miss hc hf => exact h.moves hc (Multiset.zero_le _) rfl (by simp) (by simp)
  | flushed hc => exact h.moves hc (Multiset.zero_le _) rfl (by simp) (by simp)
  | create hc => exact h.create hc
  | insert hc => exact h.insert hc rfl rfl (by simp)
  | recache hc hf hr => exact h.recache hc hf
  | @discard i key block hc hf =>
    exact h.mono h.fine (Cuda.Shrinks.refl _) (placed_discard hc hf).le (fun b hb => List.mem_of_mem_erase hb)
      (fun b hb => hb) (fun b => freshIn_set hc (Multiset.zero_le _))
      fun b => ⟨recording_of_set (by simp), recording_set hc (by simp)⟩
  | lost hc hf => exact h.moves hc (Multiset.zero_le _) rfl (by simp) (by simp)
  | record hc => exact h.record hc
  | release hc => exact h.release hc rfl rfl (by simp)
  | wild hc => exact (hinv.sound_of hc).elim
  | freeAll hc =>
    have hfreed := h.freeSome s.cachedBlocks.length (c := .finished) hc rfl rfl (by simp)
    exact hfreed
  | malloc hc hs hd => exact h.malloc hc hd
  | @noMemory i request key again hc =>
    cases again with
    | true => exact h.moves hc (Multiset.zero_le _) rfl (by simp) (by simp)
    | false => exact h.moves hc (Multiset.zero_le _) rfl (by simp) (by simp)
  | mallocError => cases ha
  | setDeviceError hc => exact h.moves hc (Multiset.zero_le _) rfl (by simp) (by simp)
  | retryError hc => exact h.moves hc (Multiset.zero_le _) rfl (by simp) (by simp)
  | createError hc => exact h.moves hc (Multiset.zero_le _) rfl (by simp) (by simp)
  | insertError hc => exact h.insert hc rfl rfl (by simp)
  | recordError hc =>
    rw [State.unordered, hc] at hordered
    cases hordered
  | releaseError hc => exact h.lose hc
  | wildError hc => exact (hinv.sound_of hc).elim
  | destroyError hc => exact h.release hc rfl rfl (by simp)
  | retryDestroyError => cases ha
  | freeAllError hc => exact h.freeSome _ hc rfl rfl (by simp)
  | freeAllDestroyError => cases ha
  | launch hc => exact h.launch hinv hc
  | @finish stream =>
    obtain ⟨hfine, hshrinks⟩ := h.fine.finish stream
    exact h.mono hfine hshrinks le_rfl (fun b hb => hb) (fun b hb => hb) (fun b hb => hb) fun b => Iff.rfl
  | query => exact ⟨⟨h.fine.launched, h.fine.held⟩, h.fresh, h.live, h.cached, h.created, h.apart, h.recording⟩

/-! ## Runs -/

/-- No step of the run is out of order. -/
def Timely (cfg : Config) (maxCachedBytes : ℕ) (t : List Label) : Prop :=
  ∀ u a s, u ++ [a] <+: t → (cachingAllocator cfg maxCachedBytes).run u = some (.ok s) → s.unordered a = false

/-- What is pending on the memory that a caller owns is on the stream of the caller. -/
def State.StreamsApart (s : State) : Prop :=
  ∀ (i request : ℕ) (b : Block) (w : Work),
    s.calls[i]? = some (.owning request b) → s.cuda.PendingOn b w → w.stream = b.stream

section Runs

variable {cfg : Config} {maxCachedBytes : ℕ} {t : List Label} {s : State} {a : Label}

theorem Timely.nil : Timely cfg maxCachedBytes [] := by
  intro u a s hu
  have hnil := List.eq_nil_of_prefix_nil hu
  simp at hnil

theorem Timely.concat (h : Timely cfg maxCachedBytes t) (hrun : (cachingAllocator cfg maxCachedBytes).run t = some (.ok s))
    (ha : s.unordered a = false) : Timely cfg maxCachedBytes (t ++ [a]) := by
  intro u b s' hu hs'
  rcases List.prefix_concat_iff.1 hu with heq | hu
  · obtain ⟨rfl, rfl⟩ := List.append_singleton_inj.1 heq
    rw [hrun, Option.some_inj, Outcome.ok.injEq] at hs'
    exact hs' ▸ ha
  · exact h u b s' hu hs'

theorem streams_start (maxCachedBytes : ℕ) : Streams (.start maxCachedBytes) where
  fine := ⟨fun _ hw => absurd hw List.not_mem_nil, fun _ hw => absurd hw.1 List.not_mem_nil⟩
  fresh _ _ := fun ⟨_, hc, _⟩ => absurd hc List.not_mem_nil
  live _ _ hb := absurd hb List.not_mem_nil
  cached _ _ hb := absurd hb List.not_mem_nil
  created _ hb := absurd hb (Multiset.notMem_zero _)
  apart := Multiset.nodup_zero
  recording _ hc := absurd hc List.not_mem_nil

theorem cachingAllocator_kept (hmin : cfg.minBin < 32) : ∀ t r, ((∀ a ∈ t, a.spoils = false) ∧
    Timely cfg maxCachedBytes t) → (cachingAllocator cfg maxCachedBytes).run t = some r →
      ∀ s, r = .ok s → Inv s ∧ Streams s := by
  refine Machine.invariant_of ?_ ?_ ?_
  · rintro t a ⟨ht, htimely⟩
    exact ⟨fun b hb => ht b (List.mem_append_left _ hb),
      fun u b s hu => htimely u b s (hu.trans (List.prefix_append t [a]))⟩
  · rintro s ⟨⟩
    exact ⟨cachingAllocator_inv hmin [] _ (by simp) rfl, streams_start maxCachedBytes⟩
  · rintro t r a r' hrun ⟨ht, htimely⟩ hI hstep s' rfl
    cases r with
    | ok s =>
      obtain ⟨hinv, h⟩ := hI s rfl
      have ha := ht a (List.mem_append_right _ (List.mem_singleton_self a))
      have he := step_cases hstep
      exact ⟨effect_inv hmin ha hinv he, effect_streams ha (htimely t a s List.prefix_rfl hrun) hinv h he⟩
    | _ => cases hstep

/-- A search keeps the streams apart exactly if all that is pending on the block is on the new stream. -/
theorem reuse_streamsApart_iff {i request : ℕ} {key found : Block} (h : s.StreamsApart)
    (hc : s.calls[i]? = some (.searching request key)) : (s.reuse i request key found).StreamsApart ↔
      ∀ w, s.cuda.PendingOn found w → w.stream = (found.device, key.associatedStream) := by
  have hlt : i < s.calls.length := (List.getElem?_eq_some_iff.1 hc).1
  have hcalls : (s.reuse i request key found).calls =
    s.calls.set i (.owning request { found with associatedStream := key.associatedStream }) := rfl
  constructor
  · intro h w hw
    refine h i request { found with associatedStream := key.associatedStream } w ?_ hw
    rw [hcalls, List.getElem?_set_self hlt]
  · intro h' j request' b w hb hw
    rw [hcalls] at hb
    by_cases hij : i = j
    · subst hij
      rw [List.getElem?_set_self hlt, Option.some_inj] at hb
      cases hb
      exact h' w hw
    · rw [List.getElem?_set_ne hij] at hb
      exact h j request' b w hb hw

end Runs

/-- A block is given back while its stream still uses it, and another stream asks before the event is recorded. -/
def handedOver : List Label :=
  [.deviceAllocate 0 10 1, .go 0, .malloc 0 64, .go 0, .go 0, .launch 0, .deviceFree 0, .go 1, .deviceAllocate 0 12 2]

end Nessus.Memory.Caching
