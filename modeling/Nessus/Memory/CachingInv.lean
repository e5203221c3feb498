import Mathlib.Algebra.BigOperators.Group.Multiset.Basic
import Mathlib.Algebra.Order.BigOperators.Group.List
import Mathlib.Data.List.TakeWhile
import Mathlib.Data.Multiset.MapFold
import Mathlib.Data.Multiset.OrderedMonoid
import Nessus.Lib.Ledger
import Nessus.Memory.CachingAllocator

/-!
# Where the blocks of the caching allocator are

* `Effect` — what one step does;
* `State.placed`, `State.bare` — the blocks that the lists or the calls have, with an event and without;
* `Inv` — the memory of the blocks is what the runtime has allocated, `cached_bytes` is what the lists add up to, and the
  bins are of one size each;
* `effect_inv`, `effect_spoils` — every step keeps it, but for those that spoil the cache.
-/

namespace Nessus.Memory.Caching

open Nessus.Lib

/-! ## One step -/

inductive Effect (cfg : Config) (s : State) : Label → State → Prop where
  | limit (maxCachedBytes : ℕ) : Effect cfg s (.setMaxCachedBytes maxCachedBytes) { s with maxCachedBytes }
  | allocate {device : ℤ} {bytes stream : ℕ} {key : Block} {cached : Bool} (hb : bytes < 2 ^ 64)
      (hkey : searchKey cfg device bytes stream = .ok (key, cached)) :
      Effect cfg s (.deviceAllocate device bytes stream)
        { s with calls := s.calls ++ [if cached then .searching bytes key else .mallocing bytes key false] }
  | deviceFree {owner request : ℕ} {block : Block} (hc : s.calls[owner]? = some (.owning request block)) :
      Effect cfg s (.deviceFree owner) { s with calls := s.calls.set owner .finished ++ [.freeing block] }
  | freeAllCached : Effect cfg s .freeAllCached { s with calls := s.calls ++ [.freeingAll] }
  | getDeviceError : Effect cfg s .getDeviceError { s with calls := s.calls ++ [.failed none] }
  | reuse {i request : ℕ} {key found : Block} (hc : s.calls[i]? = some (.searching request key))
      (hf : s.search key = some found) : Effect cfg s (.go i) (s.reuse i request key found)
  | miss {i request : ℕ} {key : Block} (hc : s.calls[i]? = some (.searching request key)) (hf : s.search key = none) :
      Effect cfg s (.go i) (s.move i (.mallocing request key false))
  | flushed {i request : ℕ} {key : Block} (hc : s.calls[i]? = some (.flushing request key)) :
      Effect cfg s (.go i) (s.move i (.mallocing request key true))
  | create {i request : ℕ} {key : Block} (hc : s.calls[i]? = some (.creating request key)) :
      Effect cfg s (.go i) (.move { s with cuda := s.cuda.createEvent } i
        (.inserting request { key with readyEvent := s.cuda.nextEvent }))
  | insert {i request : ℕ} {block : Block} (hc : s.calls[i]? = some (.inserting request block)) :
      Effect cfg s (.go i) (s.insert i block (.owning request block))
  | recache {i : ℕ} {key block : Block} (hc : s.calls[i]? = some (.freeing key)) (hf : s.findLive key = some block)
      (hr : s.Recached block) : Effect cfg s (.go i) (s.recache i block)
  | discard {i : ℕ} {key block : Block} (hc : s.calls[i]? = some (.freeing key)) (hf : s.findLive key = some block) :
      Effect cfg s (.go i) (s.discard i block)
  | lost {i : ℕ} {key : Block} (hc : s.calls[i]? = some (.freeing key)) (hf : s.findLive key = none) :
      Effect cfg s (.go i) (s.move i (.wild key))
  | record {i : ℕ} {block : Block} (hc : s.calls[i]? = some (.recording block)) :
      Effect cfg s (.go i) (.move { s with cuda := s.cuda.eventRecord block.readyEvent block.stream } i .finished)
  | release {i : ℕ} {block : Block} (hc : s.calls[i]? = some (.releasing block)) :
      Effect cfg s (.go i) (.move { s with cuda := s.cuda.free block.memory } i .finished)
  | wild {i : ℕ} {block : Block} (hc : s.calls[i]? = some (.wild block)) :
      Effect cfg s (.go i) (.move { s with cuda := s.cuda.free block.memory } i (.failed none))
  | freeAll {i : ℕ} (hc : s.calls[i]? = some .freeingAll) : Effect cfg s (.go i) (s.freeAll.move i .finished)
  | malloc {i ptr request : ℕ} {key : Block} {again : Bool} (hc : s.calls[i]? = some (.mallocing request key again))
      (hs : { key with dPtr := ptr }.memory.InSpace) (hd : ∀ m ∈ s.cuda.held, m.Disjoint { key with dPtr := ptr }.memory) :
      Effect cfg s (.malloc i ptr) (.move { s with cuda := s.cuda.malloc { key with dPtr := ptr }.memory } i
        (.creating request { key with dPtr := ptr }))
  | noMemory {i request : ℕ} {key : Block} {again : Bool} (hc : s.calls[i]? = some (.mallocing request key again)) :
      Effect cfg s (.noMemory i) (s.move i (if again then .failed none else .flushing request key))
  | mallocError {i request : ℕ} {key : Block} (hc : s.calls[i]? = some (.mallocing request key false)) :
      Effect cfg s (.mallocError i) (s.move i (.creating request key))
  | setDeviceError {i request : ℕ} {key : Block} (hc : s.calls[i]? = some (.mallocing request key false)) :
      Effect cfg s (.error i) (s.move i (.failed none))
  | retryError {i request : ℕ} {key block : Block} (hc : s.calls[i]? = some (.flushing request key))
      (hf : s.firstOn key.device = some block) : Effect cfg s (.error i) (s.move i (.failed none))
  | createError {i request : ℕ} {key : Block} (hc : s.calls[i]? = some (.creating request key)) :
      Effect cfg s (.error i) (s.move i (.failed (some key)))
  | insertError {i request : ℕ} {block : Block} (hc : s.calls[i]? = some (.inserting request block)) :
      Effect cfg s (.error i) (s.insert i block (.leaked block))
  | recordError {i : ℕ} {block : Block} (hc : s.calls[i]? = some (.recording block)) :
      Effect cfg s (.error i) (s.move i (.failed none))
  | releaseError {i : ℕ} {block : Block} (hc : s.calls[i]? = some (.releasing block)) :
      Effect cfg s (.error i) (s.move i (.failed (some block)))
  | wildError {i : ℕ} {block : Block} (hc : s.calls[i]? = some (.wild block)) :
      Effect cfg s (.error i) (s.move i (.failed none))
  | destroyError {i : ℕ} {block : Block} (hc : s.calls[i]? = some (.releasing block)) :
      Effect cfg s (.destroyError i) (.move { s with cuda := s.cuda.free block.memory } i (.failed none))
  | retryDestroyError {i request : ℕ} {key block : Block} (hc : s.calls[i]? = some (.flushing request key))
      (hf : s.firstOn key.device = some block) :
      Effect cfg s (.retryDestroyError i) (.move { s with cuda := s.cuda.free block.memory } i (.failed none))
  | freeAllError {i n : ℕ} {block : Block} (hc : s.calls[i]? = some .freeingAll) (hb : s.cachedBlocks[n]? = some block) :
      Effect cfg s (.freeAllError i n false) ((s.freeSome n).move i (.failed none))
  | freeAllDestroyError {i n : ℕ} {block : Block} (hc : s.calls[i]? = some .freeingAll)
      (hb : s.cachedBlocks[n]? = some block) : Effect cfg s (.freeAllError i n true)
        (.move { s.freeSome n with cuda := (s.freeSome n).cuda.free block.memory } i (.failed none))
  | query (event : ℕ) (fails : Bool) : Effect cfg s (.query event fails) { s with cuda := s.cuda.query event fails }
  | launch {owner request : ℕ} {block : Block} (hc : s.calls[owner]? = some (.owning request block)) :
      Effect cfg s (.launch owner) { s with cuda := s.cuda.launch block.stream block.dPtr }
  | finish {stream : ℤ × ℕ} (h : s.cuda.finished stream < s.cuda.launched stream) :
      Effect cfg s (.finish stream) { s with cuda := s.cuda.finish stream }

section Step

variable {cfg : Config} {s s' : State} {a : Label} {i : ℕ}

theorem go_cases {c : Call} (hc : s.calls[i]? = some c) (h : s.go cfg i c = some (.ok s')) : Effect cfg s (.go i) s' := by
  cases c with
  | searching request key =>
    simp only [State.go] at h
    split at h
    · next found hf =>
      split at h
      · cases h
      · cases h
        exact .reuse hc hf
    · next hf =>
      cases h
      exact .miss hc hf
  | flushing request key =>
    simp only [State.go] at h
    split at h
    · cases h
    · cases h
      exact .flushed hc
  | creating request key =>
    cases h
    exact .create hc
  | inserting request block =>
    cases h
    exact .insert hc
  | freeing key =>
    simp only [State.go] at h
    split at h
    · next block hf =>
      split at h
      · next hr =>
        cases h
        exact .recache hc hf hr
      · cases h
        exact .discard hc hf
    · next hf =>
      cases h
      exact .lost hc hf
  | recording block =>
    cases h
    exact .record hc
  | releasing block =>
    cases h
    exact .release hc
  | wild block =>
    cases h
    exact .wild hc
  | freeingAll =>
    simp only [State.go] at h
    split at h
    · cases h
    · cases h
      exact .freeAll hc
  | _ => cases h

theorem error_cases {c : Call} (hc : s.calls[i]? = some c) (h : s.error i c = some s') : Effect cfg s (.error i) s' := by
  cases c with
  | mallocing request key again =>
    cases again with
    | true => cases h
    | false =>
      cases h
      exact .setDeviceError hc
  | flushing request key =>
    simp only [State.error] at h
    split at h
    · next hf =>
      cases h
      exact .retryError hc hf
    · cases h
  | creating request key =>
    cases h
    exact .createError hc
  | inserting request block =>
    cases h
    exact .insertError hc
  | recording block =>
    cases h
    exact .recordError hc
  | releasing block =>
    cases h
    exact .releaseError hc
  | wild block =>
    cases h
    exact .wildError hc
  | _ => cases h

theorem freeAllError_cases {n : ℕ} {destroying : Bool} (hc : s.calls[i]? = some .freeingAll)
    (h : s.freeAllError cfg i n destroying = some (.ok s')) : Effect cfg s (.freeAllError i n destroying) s' := by
  rw [State.freeAllError] at h
  split at h
  · next hb =>
    split at h
    · cases h
    · cases destroying with
      | false =>
        cases h
        exact .freeAllError hc hb
      | true =>
        cases h
        exact .freeAllDestroyError hc hb
  · cases h

/-- **One step** is one of `Effect`. -/
theorem step_cases (h : s.step cfg a = some (.ok s')) : Effect cfg s a s' := by
  cases a with
  | setMaxCachedBytes maxCachedBytes =>
    cases h
    exact .limit _
  | deviceAllocate device bytes stream =>
    rw [State.step] at h
    split at h
    · next hb =>
      rw [Option.some_inj, Outcome.bind_eq_ok] at h
      obtain ⟨⟨key, cached⟩, hkey, h⟩ := h
      cases h
      exact .allocate hb hkey
    · cases h
  | deviceFree owner =>
    simp only [State.step] at h
    split at h
    · next hc =>
      cases h
      exact .deviceFree hc
    · cases h
  | freeAllCached =>
    cases h
    exact .freeAllCached
  | getDeviceError =>
    cases h
    exact .getDeviceError
  | go i =>
    obtain ⟨c, hc, hgo⟩ := Option.bind_eq_some_iff.1 h
    exact go_cases hc hgo
  | malloc i ptr =>
    simp only [State.step] at h
    split at h
    · next hc =>
      split at h
      · next hd =>
        cases h
        exact .malloc hc hd.1 hd.2
      · cases h
    · cases h
  | noMemory i =>
    simp only [State.step] at h
    split at h
    · next hc =>
      cases h
      exact .noMemory hc
    · cases h
  | mallocError i =>
    simp only [State.step] at h
    split at h
    · next hc =>
      cases h
      exact .mallocError hc
    · cases h
  | error i =>
    obtain ⟨s'', herror, heq⟩ := Option.map_eq_some_iff.1 h
    obtain ⟨c, hc, herror⟩ := Option.bind_eq_some_iff.1 herror
    cases heq
    exact error_cases hc herror
  | destroyError i =>
    simp only [State.step] at h
    split at h
    · next hc =>
      cases h
      exact .destroyError hc
    · cases h
  | retryDestroyError i =>
    simp only [State.step] at h
    split at h
    · next hc =>
      obtain ⟨block, hf, heq⟩ := Option.map_eq_some_iff.1 h
      cases heq
      exact .retryDestroyError hc hf
    · cases h
  | freeAllError i n destroying =>
    simp only [State.step] at h
    split at h
    · next hc => exact freeAllError_cases hc h
    · cases h
  | query event fails =>
    cases h
    exact .query event fails
  | launch owner =>
    simp only [State.step] at h
    split at h
    · next hc =>
      cases h
      exact .launch hc
    · cases h
  | finish stream =>
    simp only [State.step] at h
    split at h
    · next hlt =>
      cases h
      exact .finish hlt
    · cases h

end Step

/-! ## Who has the blocks -/

/-- The block that a call has, with its event. -/
def Call.hand : Call → Multiset Block
  | inserting _ block => {block}
  | releasing block => {block}
  | _ => 0

/-- The block that has no event, or whose memory is lost. -/
def Call.bare : Call → Multiset Block
  | creating _ key => {key}
  | failed (some lost) => {lost}
  | _ => 0

/-- The block that the caller owns or has just given back, or was not told of. -/
def Call.owned : Call → Multiset Block
  | owning _ block => {block}
  | freeing block => {block}
  | leaked block => {block}
  | _ => 0

namespace State

variable (s : State)

def hands : Multiset Block := (s.calls.map Call.hand).sum

def bare : Multiset Block := (s.calls.map Call.bare).sum

def owned : Multiset Block := (s.calls.map Call.owned).sum

/-- The blocks that have an event: each is live, cached, or in the hand of a call. -/
def placed : Multiset Block := ↑s.liveBlocks + ↑s.cachedBlocks + s.hands

end State

/-- The bytes of the blocks that are on the device. -/
def bytesOn (device : ℤ) (blocks : Multiset Block) : ℕ := ((blocks.filter (·.device = device)).map Block.bytes).sum

section BytesOn

variable {device : ℤ} {block : Block} {m n : Multiset Block}

theorem bytesOn_add : bytesOn device (m + n) = bytesOn device m + bytesOn device n := by
  rw [bytesOn, Multiset.filter_add, Multiset.map_add, Multiset.sum_add, bytesOn, bytesOn]

theorem bytesOn_cons_self (m : Multiset Block) : bytesOn block.device (block ::ₘ m) = block.bytes + bytesOn block.device m := by
  rw [bytesOn, Multiset.filter_cons_of_pos (p := fun b : Block => b.device = block.device) _ rfl, Multiset.map_cons,
    Multiset.sum_cons, bytesOn]

theorem bytesOn_cons_of_ne (h : device ≠ block.device) (m : Multiset Block) :
    bytesOn device (block ::ₘ m) = bytesOn device m := by
  rw [bytesOn, Multiset.filter_cons_of_neg (p := fun b : Block => b.device = device) _ h.symm, bytesOn]

theorem bytesOn_le (h : m ≤ n) : bytesOn device m ≤ bytesOn device n := by
  obtain ⟨rest, rfl⟩ := Multiset.le_iff_exists_add.1 h
  rw [bytesOn_add]
  exact Nat.le_add_right _ _

/-- What the memory of the blocks has, the blocks have. -/
theorem bytesOn_eq_memory : bytesOn device m =
    (((m.map Block.memory).filter (·.device = device)).map DeviceMemory.bytes).sum := by
  rw [Multiset.filter_map, Multiset.map_map, bytesOn]
  rfl

end BytesOn

/-- The bytes of a block are those of its bin. -/
def Block.Sized (block : Block) : Prop := block.bin ≠ invalidBin → block.bytes = 2 ^ block.bin

/-- What is known of a call. -/
def Call.Sound : Call → Prop
  | searching request key => request ≤ key.bytes ∧ key.Sized ∧ key.bin ≠ invalidBin
  | mallocing request key _ => request ≤ key.bytes ∧ key.Sized
  | flushing request key => request ≤ key.bytes ∧ key.Sized
  | creating request key => request ≤ key.bytes ∧ key.Sized
  | inserting request block => request ≤ block.bytes ∧ block.Sized
  | owning request block => request ≤ block.bytes ∧ block.Sized
  | freeing block => block.Sized
  | wild _ => False
  | _ => True

/-- The order of `cached_blocks`. -/
def Sorted (blocks : List Block) : Prop := blocks.Pairwise fun a b => ¬ b.SizeCompare a

/-- Every block is in one place, and the books are right. -/
structure Inv (s : State) : Prop where
  memory : (s.placed + s.bare).map Block.memory = ↑s.cuda.held
  apart : s.cuda.held.Pairwise DeviceMemory.Disjoint
  space : ∀ m ∈ s.cuda.held, m.InSpace
  owned : ↑s.liveBlocks = s.owned
  accounts : ∀ device, s.cachedBytes device = ⟨bytesOn device ↑s.cachedBlocks, bytesOn device ↑s.liveBlocks⟩
  cached : ∀ block ∈ s.cachedBlocks, block.bin ≠ invalidBin ∧ block.Sized
  sorted : Sorted s.cachedBlocks
  sound : ∀ c ∈ s.calls, c.Sound

/-! ## The lists -/

section Lists

variable {block found : Block} {l : List Block} {r : Block → Block → Prop} [DecidableRel r]

theorem coe_orderedInsert (block : Block) (l : List Block) : (↑(l.orderedInsert r block) : Multiset Block) = block ::ₘ ↑l :=
  Multiset.coe_eq_coe.2 (List.perm_orderedInsert r block l)

theorem cons_coe_erase (h : found ∈ l) : found ::ₘ (↑(l.erase found) : Multiset Block) = ↑l :=
  Multiset.coe_eq_coe.2 (List.perm_cons_erase h).symm

theorem not_sizeCompare_trans {a b c : Block} (hab : ¬ b.SizeCompare a) (hbc : ¬ c.SizeCompare b) : ¬ c.SizeCompare a := by
  unfold Block.SizeCompare at *
  split at hab <;> split at hbc <;> split <;> omega

theorem sorted_orderedInsert (h : Sorted l) (block : Block) : Sorted (l.orderedInsert Block.SizeCompare block) := by
  induction l with
  | nil => exact List.pairwise_singleton _ _
  | cons b l ih =>
    obtain ⟨hb, hl⟩ := List.pairwise_cons.1 h
    rw [List.orderedInsert]
    split
    · next hlt =>
      refine List.pairwise_cons.2 ⟨fun c hc => ?_, h⟩
      have hbc : ¬ c.SizeCompare b := by
        rcases List.mem_cons.1 hc with rfl | hc
        · unfold Block.SizeCompare
          simp
        · exact hb c hc
      refine not_sizeCompare_trans (fun hba => ?_) hbc
      unfold Block.SizeCompare at hlt hba
      split at hlt <;> split at hba <;> omega
    · next hlt =>
      refine List.pairwise_cons.2 ⟨fun c hc => ?_, ih hl⟩
      rcases (List.perm_orderedInsert _ _ _).mem_iff.1 hc |> List.mem_cons.1 with rfl | hc
      · exact hlt
      · exact hb c hc

theorem sorted_erase (h : Sorted l) (block : Block) : Sorted (l.erase block) := h.sublist List.erase_sublist

end Lists

/-! ## Where a step moves the blocks -/

section Places

variable {s s' : State} {i request : ℕ} {c c' : Call} {key block found : Block}

/-- What the calls have when one of them moves on. -/
theorem hands_set {x y : Multiset Block} (hc : s.calls[i]? = some c) (hs : s'.calls = s.calls.set i c') (hx : c.hand = x)
    (hy : c'.hand = y) : s'.hands + x = s.hands + y := by
  rw [State.hands, hs, ← hx, ← hy]
  exact sum_map_set hc c'

theorem bare_set {x y : Multiset Block} (hc : s.calls[i]? = some c) (hs : s'.calls = s.calls.set i c') (hx : c.bare = x)
    (hy : c'.bare = y) : s'.bare + x = s.bare + y := by
  rw [State.bare, hs, ← hx, ← hy]
  exact sum_map_set hc c'

theorem owned_set {x y : Multiset Block} (hc : s.calls[i]? = some c) (hs : s'.calls = s.calls.set i c') (hx : c.owned = x)
    (hy : c'.owned = y) : s'.owned + x = s.owned + y := by
  rw [State.owned, hs, ← hx, ← hy]
  exact sum_map_set hc c'

theorem search_mem (h : s.search key = some found) : found ∈ s.cachedBlocks :=
  (List.dropWhile_sublist _).subset ((List.takeWhile_sublist _).subset (List.mem_of_find?_eq_some h))

theorem search_bin (h : s.search key = some found) : found.device = key.device ∧ found.bin = key.bin := by
  have hfound := List.mem_takeWhile_imp (List.mem_of_find?_eq_some h)
  exact of_decide_eq_true hfound

theorem firstOn_mem {device : ℤ} (h : s.firstOn device = some block) : block ∈ s.cachedBlocks := by
  obtain ⟨hhead, -⟩ := Option.filter_eq_some_iff.1 h
  exact (List.dropWhile_sublist _).subset (List.mem_of_mem_head? hhead)

theorem findLive_mem (h : s.findLive key = some block) : block ∈ s.liveBlocks := List.mem_of_find?_eq_some h

theorem findLive_ptr (h : s.findLive key = some block) : block.device = key.device ∧ block.dPtr = key.dPtr := by
  have hfound := List.find?_some h
  exact of_decide_eq_true hfound

/-- The lists as they are, and a call that moves on with what it has. -/
theorem placed_of_lists (hlive : s'.liveBlocks = s.liveBlocks) (hcached : s'.cachedBlocks = s.cachedBlocks)
    (hhands : s'.hands = s.hands) : s'.placed = s.placed := by
  rw [State.placed, hlive, hcached, hhands, State.placed]

theorem placed_reuse (hc : s.calls[i]? = some (.searching request key)) (hf : s.search key = some found) :
    ∃ rest, s.placed = found ::ₘ rest ∧
      (s.reuse i request key found).placed = { found with associatedStream := key.associatedStream } ::ₘ rest := by
  refine ⟨↑s.liveBlocks + ↑(s.cachedBlocks.erase found) + s.hands, ?_, ?_⟩
  · rw [State.placed, ← cons_coe_erase (search_mem hf), Multiset.add_cons, Multiset.cons_add]
  · have hset : (s.reuse i request key found).hands + 0 = s.hands + 0 := hands_set hc rfl rfl rfl
    have hlists : (s.reuse i request key found).placed =
        ↑(s.liveBlocks.orderedInsert Block.PtrCompare { found with associatedStream := key.associatedStream }) +
          ↑(s.cachedBlocks.erase found) + (s.reuse i request key found).hands := rfl
    rw [hlists, coe_orderedInsert, Multiset.cons_add, Multiset.cons_add, add_right_cancel hset]

theorem placed_insert (hc : s.calls[i]? = some (.inserting request block)) (hhand : c'.hand = 0) :
    (s.insert i block c').placed = s.placed := by
  have hset : (s.insert i block c').hands + {block} = s.hands + 0 := hands_set hc rfl rfl hhand
  have hlists : (s.insert i block c').placed =
      ↑(s.liveBlocks.orderedInsert Block.PtrCompare block) + ↑s.cachedBlocks + (s.insert i block c').hands := rfl
  rw [add_zero, ← Multiset.cons_zero, Multiset.add_cons, add_zero] at hset
  rw [hlists, coe_orderedInsert, Multiset.cons_add, Multiset.cons_add, State.placed, ← hset, Multiset.add_cons]

theorem placed_recache (hc : s.calls[i]? = some (.freeing key)) (hf : s.findLive key = some block) :
    (s.recache i block).placed = s.placed := by
  have hset : (s.recache i block).hands + 0 = s.hands + 0 := hands_set hc rfl rfl rfl
  have hlists : (s.recache i block).placed =
      ↑(s.liveBlocks.erase block) + ↑(s.cachedBlocks.orderedInsert Block.SizeCompare block) + (s.recache i block).hands := rfl
  rw [hlists, coe_orderedInsert, Multiset.add_cons, Multiset.cons_add, State.placed, ← cons_coe_erase (findLive_mem hf),
    Multiset.cons_add, Multiset.cons_add, add_right_cancel hset]

theorem placed_discard (hc : s.calls[i]? = some (.freeing key)) (hf : s.findLive key = some block) :
    (s.discard i block).placed = s.placed := by
  have hset : (s.discard i block).hands + 0 = s.hands + {block} := hands_set hc rfl rfl rfl
  have hlists : (s.discard i block).placed =
      ↑(s.liveBlocks.erase block) + ↑s.cachedBlocks + (s.discard i block).hands := rfl
  rw [add_zero, ← Multiset.cons_zero, Multiset.add_cons, add_zero] at hset
  rw [hlists, hset, State.placed, ← cons_coe_erase (findLive_mem hf), Multiset.cons_add, Multiset.cons_add,
    Multiset.add_cons]

theorem placed_create {cuda : Cuda} (hc : s.calls[i]? = some (.creating request key)) :
    (State.move { s with cuda } i (.inserting request block)).placed = block ::ₘ s.placed := by
  have hset : (State.move { s with cuda } i (.inserting request block)).hands + 0 = s.hands + {block} := hands_set hc rfl rfl rfl
  have hlists : (State.move { s with cuda } i (.inserting request block)).placed =
      ↑s.liveBlocks + ↑s.cachedBlocks + (State.move { s with cuda } i (.inserting request block)).hands := rfl
  rw [add_zero, ← Multiset.cons_zero, Multiset.add_cons, add_zero] at hset
  rw [hlists, hset, Multiset.add_cons, State.placed]

theorem placed_release {cuda : Cuda} (hc : s.calls[i]? = some (.releasing block)) (hhand : c'.hand = 0) :
    s.placed = block ::ₘ (State.move { s with cuda } i c').placed := by
  have hset : (State.move { s with cuda } i c').hands + {block} = s.hands + 0 := hands_set hc rfl rfl hhand
  have hlists : (State.move { s with cuda } i c').placed =
      ↑s.liveBlocks + ↑s.cachedBlocks + (State.move { s with cuda } i c').hands := rfl
  rw [add_zero, ← Multiset.cons_zero, Multiset.add_cons, add_zero] at hset
  rw [hlists, State.placed, ← hset, Multiset.add_cons]

end Places

/-! ## What the invariant says of a state -/

/-- What is allocated on a device is less than the address space. -/
theorem held_lt {held : List DeviceMemory} (hp : held.Pairwise DeviceMemory.Disjoint) (hs : ∀ m ∈ held, m.InSpace)
    (device : ℤ) : (((held : Multiset DeviceMemory).filter (·.device = device)).map DeviceMemory.bytes).sum < 2 ^ 64 := by
  have hle : ((held.filter fun m => decide (m.device = device)).map DeviceMemory.bytes).sum ≤ 2 ^ 64 - 1 := by
    refine sum_length_le DeviceMemory.ptr DeviceMemory.bytes ?_ fun m hm => hs m (List.mem_of_mem_filter hm)
    refine (hp.filter _).imp_of_mem fun {m n} hm hn hd => (hd ?_).2
    have hm := of_decide_eq_true (List.mem_filter.1 hm).2
    have hn := of_decide_eq_true (List.mem_filter.1 hn).2
    rw [hm, hn]
  rw [Multiset.filter_coe, Multiset.map_coe, Multiset.sum_coe]
  omega

instance : Std.Symm DeviceMemory.Disjoint := ⟨fun _ _ hd heq => ⟨(hd heq.symm).1.symm, (hd heq.symm).2.symm⟩⟩

namespace Inv

variable {s : State}

theorem mem_held (h : Inv s) {b : Block} (hb : b ∈ s.placed + s.bare) : b.memory ∈ s.cuda.held := by
  rw [← Multiset.mem_coe, ← h.memory]
  exact Multiset.mem_map_of_mem _ hb

theorem nodup (h : Inv s) : ((s.placed + s.bare).map Block.memory).Nodup := by
  rw [h.memory]
  exact Multiset.coe_nodup.2 (h.apart.imp fun hd heq => (hd (congrArg _ heq)).1 (congrArg _ heq))

theorem eq_of_ptr (h : Inv s) {a b : Block} (ha : a ∈ s.placed + s.bare) (hb : b ∈ s.placed + s.bare)
    (hd : a.device = b.device) (hp : a.dPtr = b.dPtr) : a = b := by
  have hmemory : a.memory = b.memory := by
    by_contra hne
    exact (h.apart.forall (h.mem_held ha) (h.mem_held hb) hne hd).1 hp
  exact Multiset.inj_on_of_nodup_map h.nodup a ha b hb hmemory

theorem bytesOn_lt (h : Inv s) {blocks : Multiset Block} (hle : blocks ≤ s.placed + s.bare) (device : ℤ) :
    bytesOn device blocks < 2 ^ 64 := by
  refine (bytesOn_le hle).trans_lt ?_
  rw [bytesOn_eq_memory, h.memory]
  exact held_lt h.apart h.space device

theorem live_le (s : State) : (↑s.liveBlocks : Multiset Block) ≤ s.placed + s.bare :=
  (Multiset.le_add_right _ _).trans ((Multiset.le_add_right _ _).trans (Multiset.le_add_right _ _))

theorem cached_le (s : State) : (↑s.cachedBlocks : Multiset Block) ≤ s.placed + s.bare :=
  (Multiset.le_add_left _ _).trans ((Multiset.le_add_right _ _).trans (Multiset.le_add_right _ _))

theorem lists_le (s : State) : (↑s.liveBlocks : Multiset Block) + ↑s.cachedBlocks ≤ s.placed + s.bare :=
  (Multiset.le_add_right _ _).trans (Multiset.le_add_right _ _)

theorem owned_mem (h : Inv s) {i : ℕ} {c : Call} {block : Block} (hc : s.calls[i]? = some c) (hb : block ∈ c.owned) :
    block ∈ s.liveBlocks := by
  rw [← Multiset.mem_coe, h.owned, State.owned]
  have hle := List.single_le_sum (M := Multiset Block) (l := s.calls.map Call.owned) (fun _ _ => Multiset.zero_le _)
  exact Multiset.mem_of_le (hle _ (List.mem_map_of_mem (List.mem_of_getElem? hc))) hb

/-- **`DeviceFree` finds the block** that its caller was given. -/
theorem findLive_eq (h : Inv s) {i : ℕ} {key : Block} (hc : s.calls[i]? = some (.freeing key)) :
    s.findLive key = some key := by
  have hmem := h.owned_mem hc (Multiset.mem_singleton_self key)
  have hplaced {b : Block} (hb : b ∈ s.liveBlocks) : b ∈ s.placed + s.bare := Multiset.mem_of_le (live_le s) hb
  cases hf : s.findLive key with
  | none => exact absurd (decide_eq_true ⟨rfl, rfl⟩) (List.find?_eq_none.1 hf key hmem)
  | some block =>
    obtain ⟨hd, hp⟩ := findLive_ptr hf
    rw [h.eq_of_ptr (hplaced (findLive_mem hf)) (hplaced hmem) hd hp]

end Inv

/-! ## The parts of the invariant -/

section Keys

variable {cfg : Config} {device : ℤ} {bytes stream : ℕ} {key : Block} {cached : Bool}

theorem ne_invalidBin {bin : ℕ} (h : bin < 64) : bin ≠ invalidBin := by
  unfold invalidBin
  omega

/-- **What is asked for fits in the key**, and a bin that is cached has one size. -/
theorem searchKey_ok (hmin : cfg.minBin < 32) (hb : bytes < 2 ^ 64)
    (h : searchKey cfg device bytes stream = .ok (key, cached)) :
    bytes ≤ key.bytes ∧ key.Sized ∧ (cached = true → key.bin ≠ invalidBin) := by
  obtain ⟨⟨power, rounded⟩, hpower, h⟩ := Outcome.bind_eq_ok.1 h
  have hgrowth : cfg.binGrowth = 2 := by
    by_contra hne
    rw [nearestPowerOf, if_pos hne] at hpower
    cases hpower
  rw [hgrowth, nearestPowerOf_eq hb] at hpower
  split at hpower
  · next hle =>
    obtain ⟨rfl, rfl⟩ : Nat.clog 2 bytes = power ∧ 2 ^ Nat.clog 2 bytes = rounded := by
      cases hpower
      exact ⟨rfl, rfl⟩
    have hfits : bytes ≤ 2 ^ Nat.clog 2 bytes := Nat.le_pow_clog (by decide) bytes
    have hlt : Nat.clog 2 bytes < 64 := Nat.lt_succ_of_le ((Nat.clog_le_iff_le_pow (by decide)).2 hle)
    have hmin' : cfg.minBinBytes = 2 ^ cfg.minBin := by
      rw [Config.minBinBytes, hgrowth, intPow_eq 2 (by omega), Nat.mod_eq_of_lt (Nat.pow_lt_pow_right (by decide) hmin)]
    simp only at h
    split at h
    · cases h
      exact ⟨le_rfl, fun hne => absurd rfl hne, fun hcached => Bool.noConfusion hcached⟩
    · split at h
      · next hsmall =>
        cases h
        refine ⟨hfits.trans ?_, fun _ => hmin', fun _ => ne_invalidBin (hmin.trans (by decide))⟩
        exact (Nat.pow_le_pow_right (by decide) hsmall.le).trans hmin'.ge
      · cases h
        exact ⟨hfits, fun _ => rfl, fun _ => ne_invalidBin hlt⟩
  · cases hpower

end Keys

section Accounts

variable {cachedBytes : ℤ → TotalBytes} {cached live : Multiset Block}

theorem accounts_update (h : ∀ d, cachedBytes d = ⟨bytesOn d cached, bytesOn d live⟩) (device : ℤ)
    (f : TotalBytes → TotalBytes) {cached' live' : Multiset Block}
    (hdevice : f ⟨bytesOn device cached, bytesOn device live⟩ = ⟨bytesOn device cached', bytesOn device live'⟩)
    (hothers : ∀ d, d ≠ device → bytesOn d cached' = bytesOn d cached ∧ bytesOn d live' = bytesOn d live) (d : ℤ) :
    Function.update cachedBytes device (f (cachedBytes device)) d = ⟨bytesOn d cached', bytesOn d live'⟩ := by
  by_cases hd : d = device
  · subst hd
    rw [Function.update_self, h, hdevice]
  · rw [Function.update_of_ne hd, h, (hothers d hd).1, (hothers d hd).2]

theorem sizeAdd_bytesOn {block : Block} {m : Multiset Block} (h : bytesOn block.device (block ::ₘ m) < 2 ^ 64) :
    sizeAdd (bytesOn block.device m) block.bytes = bytesOn block.device (block ::ₘ m) := by
  rw [bytesOn_cons_self] at h ⊢
  rw [sizeAdd_of_lt (by omega), Nat.add_comm]

theorem sizeSub_bytesOn {block : Block} {m : Multiset Block} (h : bytesOn block.device (block ::ₘ m) < 2 ^ 64) :
    sizeSub (bytesOn block.device (block ::ₘ m)) block.bytes = bytesOn block.device m := by
  rw [bytesOn_cons_self] at h ⊢
  rw [sizeSub_of_le (Nat.le_add_right _ _) h, Nat.add_sub_cancel_left]

end Accounts

namespace Inv

variable {s s' : State} {i request : ℕ} {c : Call} {key block found : Block}

theorem of_same (h : Inv s) (hlive : s'.liveBlocks = s.liveBlocks) (hcached : s'.cachedBlocks = s.cachedBlocks)
    (hbytes : s'.cachedBytes = s.cachedBytes) (hheld : s'.cuda.held = s.cuda.held) (hhands : s'.hands = s.hands)
    (hbare : s'.bare = s.bare) (howned : s'.owned = s.owned) (hsound : ∀ c ∈ s'.calls, c.Sound) : Inv s' where
  memory := by rw [placed_of_lists hlive hcached hhands, hbare, hheld, h.memory]
  apart := hheld ▸ h.apart
  space := hheld ▸ h.space
  owned := by rw [hlive, howned, h.owned]
  accounts device := by rw [hbytes, hlive, hcached, h.accounts]
  cached := hcached ▸ h.cached
  sorted := hcached ▸ h.sorted
  sound := hsound

theorem call (h : Inv s) {c : Call} (hhand : c.hand = 0) (hbare : c.bare = 0) (howned : c.owned = 0) (hsound : c.Sound) :
    Inv { s with calls := s.calls ++ [c] } := by
  refine h.of_same rfl rfl rfl rfl ?_ ?_ ?_ fun d hd => ?_
  · exact (sum_map_concat c).trans (by rw [hhand, add_zero]; rfl)
  · exact (sum_map_concat c).trans (by rw [hbare, add_zero]; rfl)
  · exact (sum_map_concat c).trans (by rw [howned, add_zero]; rfl)
  · rcases List.mem_append.1 hd with hd | hd
    · exact h.sound d hd
    · exact List.mem_singleton.1 hd ▸ hsound

theorem sound_set (h : Inv s) {c : Call} (hc : c.Sound) : ∀ d ∈ s.calls.set i c, d.Sound := by
  intro d hd
  rcases List.mem_or_eq_of_mem_set hd with hd | rfl
  · exact h.sound d hd
  · exact hc

theorem moves (h : Inv s) {c c' : Call} (hc : s.calls[i]? = some c) (hhand : c'.hand = c.hand) (hbare : c'.bare = c.bare)
    (howned : c'.owned = c.owned) (hsound : c'.Sound) : Inv (s.move i c') := by
  refine h.of_same rfl rfl rfl rfl ?_ ?_ ?_ (h.sound_set hsound)
  · have hset : (s.move i c').hands + c.hand = s.hands + c.hand := hands_set hc rfl rfl hhand
    exact add_right_cancel hset
  · have hset : (s.move i c').bare + c.bare = s.bare + c.bare := bare_set hc rfl rfl hbare
    exact add_right_cancel hset
  · have hset : (s.move i c').owned + c.owned = s.owned + c.owned := owned_set hc rfl rfl howned
    exact add_right_cancel hset

theorem sound_of (h : Inv s) {c : Call} (hc : s.calls[i]? = some c) : c.Sound := h.sound c (List.mem_of_getElem? hc)

/-- The caller gives up a block by a call of `DeviceFree`, which claims it. -/
theorem deviceFree (h : Inv s) {owner : ℕ} (hc : s.calls[owner]? = some (.owning request block)) :
    Inv { s with calls := s.calls.set owner .finished ++ [.freeing block] } := by
  have hhands := sum_map_set (f := Call.hand) hc .finished
  have hbare := sum_map_set (f := Call.bare) hc .finished
  have howned := sum_map_set (f := Call.owned) hc .finished
  refine h.of_same rfl rfl rfl rfl ?_ ?_ ?_ fun c hc' => ?_
  · exact (sum_map_concat _).trans (hhands.trans (add_zero _))
  · exact (sum_map_concat _).trans (hbare.trans (add_zero _))
  · exact (sum_map_concat _).trans (howned.trans (add_zero _))
  · rcases List.mem_append.1 hc' with hc' | hc'
    · exact h.sound_set (c := .finished) trivial c hc'
    · exact List.mem_singleton.1 hc' ▸ (h.sound_of hc).2

/-! ### The steps that move blocks -/

theorem reuse (h : Inv s) (hc : s.calls[i]? = some (.searching request key)) (hf : s.search key = some found) :
    Inv (s.reuse i request key found) := by
  obtain ⟨hfits, hsized, hbin⟩ := h.sound_of hc
  obtain ⟨hdevice, hbineq⟩ := search_bin hf
  have hcached := cons_coe_erase (search_mem hf)
  have hbytes : found.bytes = key.bytes := by
    rw [(h.cached found (search_mem hf)).2 (hbineq ▸ hbin), hsized hbin, hbineq]
  set block : Block := { found with associatedStream := key.associatedStream } with hblock
  have hbare : (s.reuse i request key found).bare + 0 = s.bare + 0 := bare_set hc rfl rfl rfl
  have howned : (s.reuse i request key found).owned + 0 = s.owned + {block} := owned_set hc rfl rfl rfl
  refine ⟨?_, h.apart, h.space, ?_, ?_, ?_, sorted_erase h.sorted found, h.sound_set ?_⟩
  · obtain ⟨rest, hplaced, hplaced'⟩ := placed_reuse hc hf
    rw [hplaced', add_right_cancel hbare]
    refine Eq.trans ?_ h.memory
    rw [hplaced, Multiset.cons_add, Multiset.cons_add, Multiset.map_cons, Multiset.map_cons]
    rfl
  · have hlive := coe_orderedInsert (r := Block.PtrCompare) block s.liveBlocks
    rw [add_zero, ← Multiset.cons_zero, Multiset.add_cons, add_zero, ← h.owned] at howned
    exact hlive.trans howned.symm
  · have hlt : bytesOn block.device (block ::ₘ ↑s.liveBlocks) < 2 ^ 64 := by
      have hle : bytesOn found.device (found ::ₘ ↑s.liveBlocks) ≤ bytesOn found.device (↑s.liveBlocks + ↑s.cachedBlocks) := by
        rw [← hcached, Multiset.add_cons]
        exact bytesOn_le (Multiset.cons_le_cons found (Multiset.le_add_right _ _))
      rw [bytesOn_cons_self] at hle ⊢
      exact hle.trans_lt (h.bytesOn_lt (lists_le s) _)
    have hsub : sizeSub (bytesOn found.device ↑s.cachedBlocks) found.bytes =
        bytesOn found.device ↑(s.cachedBlocks.erase found) := by
      have hlt := h.bytesOn_lt (cached_le s) found.device
      rw [← hcached] at hlt ⊢
      exact sizeSub_bytesOn hlt
    intro d
    have hlists : (s.reuse i request key found).cachedBytes d =
        ⟨bytesOn d ↑(s.cachedBlocks.erase found), bytesOn d (block ::ₘ ↑s.liveBlocks)⟩ := by
      refine accounts_update h.accounts key.device (fun b => ⟨sizeSub b.free block.bytes, sizeAdd b.live block.bytes⟩) ?_
        (fun d hd => ?_) d
      · rw [← hdevice]
        exact congrArg₂ TotalBytes.mk hsub (sizeAdd_bytesOn hlt)
      · rw [← hdevice] at hd
        rw [← hcached, bytesOn_cons_of_ne hd, bytesOn_cons_of_ne (show d ≠ block.device from hd)]
        exact ⟨rfl, rfl⟩
    rw [hlists, ← coe_orderedInsert (r := Block.PtrCompare)]
    rfl
  · exact fun b hb => h.cached b (List.mem_of_mem_erase hb)
  · exact ⟨hfits.trans hbytes.ge, fun hne => (h.cached found (search_mem hf)).2 hne⟩

theorem insert (h : Inv s) (hc : s.calls[i]? = some (.inserting request block)) (hhand : c.hand = 0) (hbare : c.bare = 0)
    (howned : c.owned = {block}) (hsound : c.Sound) : Inv (s.insert i block c) := by
  have hbares : (s.insert i block c).bare + 0 = s.bare + 0 := bare_set hc rfl rfl hbare
  have howneds : (s.insert i block c).owned + 0 = s.owned + {block} := owned_set hc rfl rfl howned
  have hhands : (s.insert i block c).hands + {block} = s.hands + 0 := hands_set hc rfl rfl hhand
  refine ⟨?_, h.apart, h.space, ?_, ?_, h.cached, h.sorted, h.sound_set hsound⟩
  · rw [placed_insert hc hhand, add_right_cancel hbares]
    exact h.memory
  · have hlive := coe_orderedInsert (r := Block.PtrCompare) block s.liveBlocks
    rw [add_zero, ← Multiset.cons_zero, Multiset.add_cons, add_zero, ← h.owned] at howneds
    exact hlive.trans howneds.symm
  · have hlt : bytesOn block.device (block ::ₘ ↑s.liveBlocks) < 2 ^ 64 := by
      refine h.bytesOn_lt ((?_ : _ ≤ s.placed).trans (Multiset.le_add_right _ _)) _
      rw [add_zero, ← Multiset.cons_zero, Multiset.add_cons, add_zero] at hhands
      rw [State.placed, ← hhands, Multiset.add_cons]
      exact Multiset.cons_le_cons block ((Multiset.le_add_right _ _).trans (Multiset.le_add_right _ _))
    intro d
    have hlists : (s.insert i block c).cachedBytes d =
        ⟨bytesOn d ↑s.cachedBlocks, bytesOn d (block ::ₘ ↑s.liveBlocks)⟩ := by
      refine accounts_update h.accounts block.device (fun b => { b with live := sizeAdd b.live block.bytes }) ?_
        (fun d hd => ?_) d
      · exact congrArg _ (sizeAdd_bytesOn hlt)
      · exact ⟨rfl, bytesOn_cons_of_ne hd _⟩
    rw [hlists, ← coe_orderedInsert (r := Block.PtrCompare)]
    rfl

theorem sizeSub_live (h : Inv s) (hb : block ∈ s.liveBlocks) :
    sizeSub (bytesOn block.device ↑s.liveBlocks) block.bytes = bytesOn block.device ↑(s.liveBlocks.erase block) := by
  have hlt := h.bytesOn_lt (live_le s) block.device
  rw [← cons_coe_erase hb] at hlt ⊢
  exact sizeSub_bytesOn hlt

theorem owned_erase (h : Inv s) (hb : block ∈ s.liveBlocks) (howned : s'.owned + {block} = s.owned + 0) :
    (↑(s.liveBlocks.erase block) : Multiset Block) = s'.owned := by
  rw [add_zero, ← Multiset.cons_zero, Multiset.add_cons, add_zero, ← h.owned, ← cons_coe_erase hb] at howned
  exact (Multiset.cons_inj_right block).1 howned.symm

theorem recache (h : Inv s) (hc : s.calls[i]? = some (.freeing key)) (hr : s.Recached key) : Inv (s.recache i key) := by
  have hf := h.findLive_eq hc
  have hlive := cons_coe_erase (findLive_mem hf)
  have hbare : (s.recache i key).bare + 0 = s.bare + 0 := bare_set hc rfl rfl rfl
  have howned : (s.recache i key).owned + {key} = s.owned + 0 := owned_set hc rfl rfl rfl
  have hmem {b : Block} (hb : b ∈ s.cachedBlocks.orderedInsert Block.SizeCompare key) : b = key ∨ b ∈ s.cachedBlocks :=
    List.mem_cons.1 ((List.perm_orderedInsert _ _ _).mem_iff.1 hb)
  refine ⟨?_, h.apart, h.space, h.owned_erase (findLive_mem hf) howned, ?_, fun b hb => ?_, sorted_orderedInsert h.sorted key,
    h.sound_set trivial⟩
  · rw [placed_recache hc hf, add_right_cancel hbare]
    exact h.memory
  · have hlt : bytesOn key.device (key ::ₘ ↑s.cachedBlocks) < 2 ^ 64 := by
      refine h.bytesOn_lt (le_trans ?_ (lists_le s)) _
      rw [← hlive, Multiset.cons_add]
      exact Multiset.cons_le_cons key (Multiset.le_add_left _ _)
    intro d
    have hlists : (s.recache i key).cachedBytes d =
        ⟨bytesOn d (key ::ₘ ↑s.cachedBlocks), bytesOn d ↑(s.liveBlocks.erase key)⟩ := by
      refine accounts_update h.accounts key.device (fun b => ⟨sizeAdd b.free key.bytes, sizeSub b.live key.bytes⟩) ?_
        (fun d hd => ?_) d
      · exact congrArg₂ TotalBytes.mk (sizeAdd_bytesOn hlt) (h.sizeSub_live (findLive_mem hf))
      · rw [← hlive, bytesOn_cons_of_ne hd, bytesOn_cons_of_ne hd]
        exact ⟨rfl, rfl⟩
    rw [hlists, ← coe_orderedInsert (r := Block.SizeCompare)]
    rfl
  · rcases hmem hb with rfl | hb
    · exact ⟨hr.1, h.sound_of hc⟩
    · exact h.cached b hb

theorem discard (h : Inv s) (hc : s.calls[i]? = some (.freeing key)) : Inv (s.discard i key) := by
  have hf := h.findLive_eq hc
  have hbare : (s.discard i key).bare + 0 = s.bare + 0 := bare_set hc rfl rfl rfl
  have howned : (s.discard i key).owned + {key} = s.owned + 0 := owned_set hc rfl rfl rfl
  refine ⟨?_, h.apart, h.space, h.owned_erase (findLive_mem hf) howned, fun d => ?_, h.cached, h.sorted, h.sound_set trivial⟩
  · rw [placed_discard hc hf, add_right_cancel hbare]
    exact h.memory
  · refine accounts_update h.accounts key.device (fun b => { b with live := sizeSub b.live key.bytes }) ?_
      (fun d hd => ?_) d
    · exact congrArg _ (h.sizeSub_live (findLive_mem hf))
    · rw [← cons_coe_erase (findLive_mem hf), bytesOn_cons_of_ne hd]
      exact ⟨rfl, rfl⟩

theorem malloc (h : Inv s) {again : Bool} (hc : s.calls[i]? = some (.mallocing request key again)) {ptr : ℕ}
    (hs : { key with dPtr := ptr }.memory.InSpace) (hd : ∀ m ∈ s.cuda.held, m.Disjoint { key with dPtr := ptr }.memory) :
    Inv (.move { s with cuda := s.cuda.malloc { key with dPtr := ptr }.memory } i
      (.creating request { key with dPtr := ptr })) := by
  have hsound := h.sound_of hc
  set s' : State := .move { s with cuda := s.cuda.malloc { key with dPtr := ptr }.memory } i
    (.creating request { key with dPtr := ptr }) with hs'
  have hhands : s'.hands + 0 = s.hands + 0 := hands_set hc rfl rfl rfl
  have hbare : s'.bare + 0 = s.bare + {{ key with dPtr := ptr }} := bare_set hc rfl rfl rfl
  have howned : s'.owned + 0 = s.owned + 0 := owned_set hc rfl rfl rfl
  refine ⟨?_, ?_, fun m hm => ?_, h.owned.trans (add_right_cancel howned).symm, h.accounts, h.cached, h.sorted,
    h.sound_set hsound⟩
  · have hheld : (↑s'.cuda.held : Multiset DeviceMemory) = ↑s.cuda.held + {{ key with dPtr := ptr }.memory} := by
      rw [← Multiset.coe_singleton, Multiset.coe_add]
      rfl
    have hplaced : s'.placed = s.placed := placed_of_lists rfl rfl (add_right_cancel hhands)
    rw [hplaced, hheld, ← h.memory, ← add_zero s'.bare, hbare, ← add_assoc, Multiset.map_add, Multiset.map_singleton]
  · refine List.pairwise_append.2 ⟨h.apart, List.pairwise_singleton _ _, fun m hm m' hm' => ?_⟩
    exact List.mem_singleton.1 hm' ▸ hd m hm
  · rcases List.mem_append.1 hm with hm | hm
    · exact h.space m hm
    · exact List.mem_singleton.1 hm ▸ hs

theorem create (h : Inv s) (hc : s.calls[i]? = some (.creating request key)) :
    Inv (.move { s with cuda := s.cuda.createEvent } i (.inserting request { key with readyEvent := s.cuda.nextEvent })) := by
  have hsound := h.sound_of hc
  set block : Block := { key with readyEvent := s.cuda.nextEvent } with hblock
  set s' : State := .move { s with cuda := s.cuda.createEvent } i (.inserting request block) with hs'
  have hbare : s'.bare + {key} = s.bare + 0 := bare_set hc rfl rfl rfl
  have howned : s'.owned + 0 = s.owned + 0 := owned_set hc rfl rfl rfl
  refine ⟨?_, h.apart, h.space, h.owned.trans (add_right_cancel howned).symm, h.accounts, h.cached, h.sorted,
    h.sound_set hsound⟩
  have hplaced : s'.placed = block ::ₘ s.placed := placed_create hc
  rw [add_zero, ← Multiset.cons_zero, Multiset.add_cons, add_zero] at hbare
  refine Eq.trans ?_ h.memory
  rw [hplaced, ← hbare, Multiset.cons_add, Multiset.add_cons, Multiset.map_cons, Multiset.map_cons]
  rfl

/-- A block that is not cached goes back to the runtime. -/
theorem release (h : Inv s) (hc : s.calls[i]? = some (.releasing block)) (hhand : c.hand = 0) (hbare : c.bare = 0)
    (howned : c.owned = 0) (hsound : c.Sound) : Inv (.move { s with cuda := s.cuda.free block.memory } i c) := by
  set s' : State := .move { s with cuda := s.cuda.free block.memory } i c with hs'
  have hbares : s'.bare + 0 = s.bare + 0 := bare_set hc rfl rfl hbare
  have howneds : s'.owned + 0 = s.owned + 0 := owned_set hc rfl rfl howned
  refine ⟨?_, h.apart.sublist List.erase_sublist, fun m hm => h.space m (List.mem_of_mem_erase hm),
    h.owned.trans (add_right_cancel howneds).symm, h.accounts, h.cached, h.sorted, h.sound_set hsound⟩
  have hheld : (↑s'.cuda.held : Multiset DeviceMemory) = (↑s.cuda.held : Multiset DeviceMemory).erase block.memory :=
    (Multiset.coe_erase _ _).symm
  have hplaced : s.placed = block ::ₘ s'.placed := placed_release hc hhand
  rw [hheld, ← h.memory, hplaced, Multiset.cons_add, Multiset.map_cons, Multiset.erase_cons_head, add_right_cancel hbares]

theorem lose (h : Inv s) (hc : s.calls[i]? = some (.releasing block)) : Inv (s.move i (.failed (some block))) := by
  have hbare : (s.move i (.failed (some block))).bare + 0 = s.bare + {block} := bare_set hc rfl rfl rfl
  have howned : (s.move i (.failed (some block))).owned + 0 = s.owned + 0 := owned_set hc rfl rfl rfl
  refine ⟨?_, h.apart, h.space, h.owned.trans (add_right_cancel howned).symm, h.accounts, h.cached, h.sorted,
    h.sound_set trivial⟩
  have hplaced : s.placed = block ::ₘ (s.move i (.failed (some block))).placed := placed_release hc rfl
  rw [add_zero, ← Multiset.cons_zero, Multiset.add_cons, add_zero] at hbare
  refine Eq.trans ?_ h.memory
  rw [hbare, hplaced, Multiset.add_cons, Multiset.cons_add]

end Inv

/-! ### `FreeAllCached` -/

section FreeAll

variable {s : State} {l : List Block}

/-- The loop leaves the lists and the calls alone, and only frees memory. -/
theorem freeFirst_frame (l : List Block) (s : State) :
    (l.foldl State.freeFirst s).calls = s.calls ∧ (l.foldl State.freeFirst s).liveBlocks = s.liveBlocks ∧
      (l.foldl State.freeFirst s).cuda.held.Sublist s.cuda.held := by
  induction l generalizing s with
  | nil => exact ⟨rfl, rfl, List.Sublist.refl _⟩
  | cons block l ih =>
    obtain ⟨hcalls, hlive, hheld⟩ := ih (s.freeFirst block)
    exact ⟨hcalls, hlive, hheld.trans List.erase_sublist⟩

theorem freeFirst_held {rest : Multiset DeviceMemory} (h : ↑s.cuda.held = (↑l : Multiset Block).map Block.memory + rest) :
    ↑(l.foldl State.freeFirst s).cuda.held = rest := by
  induction l generalizing s with
  | nil => simpa using h
  | cons block l ih =>
    refine ih (s := s.freeFirst block) ?_
    have hheld : (↑(s.freeFirst block).cuda.held : Multiset DeviceMemory) =
        (↑s.cuda.held : Multiset DeviceMemory).erase block.memory :=
      (Multiset.coe_erase _ _).symm
    rw [hheld, h, ← Multiset.cons_coe, Multiset.map_cons, Multiset.cons_add, Multiset.erase_cons_head]

theorem freeFirst_accounts {live rest : Multiset Block}
    (h : ∀ d, s.cachedBytes d = ⟨bytesOn d (↑l + rest), bytesOn d live⟩) (hlt : ∀ d, bytesOn d (↑l + rest) < 2 ^ 64) (d : ℤ) :
    (l.foldl State.freeFirst s).cachedBytes d = ⟨bytesOn d rest, bytesOn d live⟩ := by
  induction l generalizing s with
  | nil => simpa using h d
  | cons block l ih =>
    have hcons : (↑(block :: l) : Multiset Block) + rest = block ::ₘ (↑l + rest) := by
      rw [← Multiset.cons_coe, Multiset.cons_add]
    rw [hcons] at h hlt
    refine ih (s := s.freeFirst block) (fun d => ?_) fun d => (bytesOn_le (Multiset.le_cons_self _ _)).trans_lt (hlt d)
    refine accounts_update h block.device (fun b => { b with free := sizeSub b.free block.bytes }) ?_ (fun d hd => ?_) d
    · exact congrArg (TotalBytes.mk · _) (sizeSub_bytesOn (hlt block.device))
    · rw [bytesOn_cons_of_ne hd]
      exact ⟨rfl, rfl⟩

theorem Inv.freeSome (h : Inv s) {i : ℕ} (n : ℕ) {c : Call} (hc : s.calls[i]? = some .freeingAll) (hhand : c.hand = 0)
    (hbare : c.bare = 0) (howned : c.owned = 0) (hsound : c.Sound) : Inv ((s.freeSome n).move i c) := by
  obtain ⟨hcalls, hlive, hsub⟩ := freeFirst_frame (s.cachedBlocks.take n) s
  have hsplit : (↑(s.cachedBlocks.take n) : Multiset Block) + ↑(s.cachedBlocks.drop n) = ↑s.cachedBlocks := by
    rw [Multiset.coe_add, List.take_append_drop]
  set s' : State := (s.freeSome n).move i c with hs'
  have hset : s'.calls = s.calls.set i c := congrArg (·.set i c) hcalls
  have hlive' : s'.liveBlocks = s.liveBlocks := hlive
  have hhands : s'.hands + 0 = s.hands + 0 := hands_set hc hset rfl hhand
  have hbares : s'.bare + 0 = s.bare + 0 := bare_set hc hset rfl hbare
  have howneds : s'.owned + 0 = s.owned + 0 := owned_set hc hset rfl howned
  refine ⟨?_, h.apart.sublist hsub, fun m hm => h.space m (hsub.subset hm), ?_, fun d => ?_,
    fun b hb => h.cached b (List.mem_of_mem_drop hb), h.sorted.sublist (List.drop_sublist n _),
    fun d hd => h.sound_set hsound d (hset ▸ hd)⟩
  · have hplaced : s'.placed = ↑s.liveBlocks + ↑(s.cachedBlocks.drop n) + s.hands := by
      rw [State.placed, hlive', add_right_cancel hhands]
      rfl
    rw [hplaced, add_right_cancel hbares]
    refine (freeFirst_held ?_).symm
    rw [← h.memory, State.placed, ← hsplit, ← Multiset.map_add]
    congr 1
    rw [← add_assoc, ← add_assoc, ← add_assoc, ← add_assoc, add_comm (s.liveBlocks : Multiset Block)]
  · rw [hlive', h.owned, add_right_cancel howneds]
  · have hbytes (d : ℤ) : s.cachedBytes d =
        ⟨bytesOn d (↑(s.cachedBlocks.take n) + ↑(s.cachedBlocks.drop n)), bytesOn d ↑s.liveBlocks⟩ := by
      rw [hsplit, h.accounts]
    rw [hlive']
    exact freeFirst_accounts hbytes (fun d => hsplit ▸ h.bytesOn_lt (cached_le s) d) d

end FreeAll

/-! ## Every step -/

/-- The memory of a block is freed that stays in the cache, or a null pointer becomes a block. -/
def Label.spoils : Label → Bool
  | mallocError _ => true
  | retryDestroyError _ => true
  | freeAllError _ _ true => true
  | _ => false

section Steps

variable {cfg : Config} {s s' : State} {a : Label}

theorem effect_inv (hmin : cfg.minBin < 32) (ha : a.spoils = false) (h : Inv s) (he : Effect cfg s a s') : Inv s' := by
  cases he with
  | limit maxCachedBytes => exact h.of_same rfl rfl rfl rfl rfl rfl rfl h.sound
  | @allocate device bytes stream key cached hb hkey =>
    obtain ⟨hfits, hsized, hbin⟩ := searchKey_ok hmin hb hkey
    cases cached with
    | true => exact h.call rfl rfl rfl ⟨hfits, hsized, hbin rfl⟩
    | false => exact h.call rfl rfl rfl ⟨hfits, hsized⟩
  | deviceFree hc => exact h.deviceFree hc
  | freeAllCached => exact h.call rfl rfl rfl trivial
  | getDeviceError => exact h.call rfl rfl rfl trivial
  | reuse hc hf => exact h.reuse hc hf
  | miss hc hf =>
    obtain ⟨hfits, hsized, -⟩ := h.sound_of hc
    exact h.moves hc rfl rfl rfl ⟨hfits, hsized⟩
  | flushed hc =>
    have hsound := h.sound_of hc
    exact h.moves hc rfl rfl rfl hsound
  | create hc => exact h.create hc
  | insert hc =>
    have hsound := h.sound_of hc
    exact h.insert hc rfl rfl rfl hsound
  | @recache i key block hc hf hr =>
    obtain rfl : key = block := Option.some_inj.1 ((h.findLive_eq hc).symm.trans hf)
    exact h.recache hc hr
  | @discard i key block hc hf =>
    obtain rfl : key = block := Option.some_inj.1 ((h.findLive_eq hc).symm.trans hf)
    exact h.discard hc
  | lost hc hf =>
    rw [h.findLive_eq hc] at hf
    cases hf
  | @record i block hc =>
    have hmoves : Inv (s.move i .finished) := h.moves hc rfl rfl rfl trivial
    exact hmoves.of_same rfl rfl rfl rfl rfl rfl rfl hmoves.sound
  | release hc => exact h.release hc rfl rfl rfl trivial
  | wild hc => exact (h.sound_of hc).elim
  | freeAll hc =>
    have hfreed := h.freeSome s.cachedBlocks.length (c := .finished) hc rfl rfl rfl trivial
    exact hfreed
  | malloc hc hs hd => exact h.malloc hc hs hd
  | @noMemory i request key again hc =>
    cases again with
    | true => exact h.moves hc rfl rfl rfl trivial
    | false =>
      have hsound := h.sound_of hc
      exact h.moves hc rfl rfl rfl hsound
  | mallocError => cases ha
  | setDeviceError hc => exact h.moves hc rfl rfl rfl trivial
  | retryError hc => exact h.moves hc rfl rfl rfl trivial
  | createError hc => exact h.moves hc rfl rfl rfl trivial
  | insertError hc => exact h.insert hc rfl rfl rfl trivial
  | recordError hc => exact h.moves hc rfl rfl rfl trivial
  | releaseError hc => exact h.lose hc
  | wildError hc => exact (h.sound_of hc).elim
  | destroyError hc => exact h.release hc rfl rfl rfl trivial
  | retryDestroyError => cases ha
  | @freeAllError i n block hc => exact h.freeSome n hc rfl rfl rfl trivial
  | freeAllDestroyError => cases ha
  | launch => exact h.of_same rfl rfl rfl rfl rfl rfl rfl h.sound
  | finish => exact h.of_same rfl rfl rfl rfl rfl rfl rfl h.sound
  | query => exact h.of_same rfl rfl rfl rfl rfl rfl rfl h.sound

theorem Inv.card (h : Inv s) : (s.placed + s.bare).card = s.cuda.held.length := by
  rw [← Multiset.card_map Block.memory, h.memory, Multiset.coe_card]

theorem memory_ne_of_free (h : Inv s) {block : Block} (hb : block ∈ s.cachedBlocks) :
    (s.placed + s.bare).map Block.memory ≠ ↑(s.cuda.free block.memory).held := by
  intro hmemory
  have hmem := h.mem_held (Multiset.mem_of_le (Inv.cached_le s) hb)
  have hcard := congrArg Multiset.card hmemory
  have hpos := List.length_pos_of_mem hmem
  rw [Multiset.card_map, h.card, Multiset.coe_card, Cuda.free, List.length_erase_of_mem hmem] at hcard
  omega

theorem effect_spoils (ha : a.spoils = true) (h : Inv s) (he : Effect cfg s a s') :
    (s'.placed + s'.bare).map Block.memory ≠ ↑s'.cuda.held := by
  cases he with
  | @mallocError i request key hc =>
    have hhands : (s.move i (.creating request key)).hands + 0 = s.hands + 0 := hands_set hc rfl rfl rfl
    have hbare : (s.move i (.creating request key)).bare + 0 = s.bare + {key} := bare_set hc rfl rfl rfl
    have hplaced : (s.move i (.creating request key)).placed = s.placed := placed_of_lists rfl rfl (add_right_cancel hhands)
    intro hmemory
    have hcard := congrArg Multiset.card hmemory
    rw [add_zero] at hbare
    rw [Multiset.card_map, hplaced, hbare, ← add_assoc, Multiset.card_add, h.card, Multiset.card_singleton,
      Multiset.coe_card] at hcard
    exact Nat.succ_ne_self _ hcard
  | @retryDestroyError i request key block hc hf =>
    have hmoves : Inv (s.move i (.failed none)) := h.moves hc rfl rfl rfl trivial
    exact memory_ne_of_free hmoves (firstOn_mem hf)
  | @freeAllDestroyError i n block hc hb =>
    have hfreed : Inv ((s.freeSome n).move i (.failed none)) := h.freeSome n hc rfl rfl rfl trivial
    refine memory_ne_of_free hfreed ?_
    have hmem : block ∈ s.cachedBlocks.drop n := List.mem_of_getElem? (i := 0) (by rw [List.getElem?_drop, Nat.add_zero, hb])
    exact hmem
  | _ => cases ha

end Steps

end Nessus.Memory.Caching
