import Mathlib.Algebra.Group.Nat.Defs
import Mathlib.Data.List.Sort
import Mathlib.Data.Nat.Log
import Mathlib.Data.Nat.Size
import Nessus.Lib.CInt
import Nessus.Lib.Machine
import Nessus.Lib.Outcome

/-!
# The caching allocator of device memory

`CachingDeviceAllocator` of `util_allocator.cuh`, with any number of calls at once, in any interleaving of their critical
sections and their calls of the CUDA runtime, each of which can fail.

* `intPow`, `nearestPowerOf` — the sizes of the bins;
* `Block` — `BlockDescriptor` with its two orders;
* `Cuda` — what the runtime knows: the memory that is allocated, and how far the streams have come;
* `cachingAllocator` — the machine.
-/

namespace Nessus.Memory.Caching

open Nessus.Lib

/-! ## Bins -/

/-- The loop of `IntPow`; an exponent has at most `bits` bits. -/
def intPowLoop (bits retval base exp : ℕ) : ℕ :=
  match bits with
  | 0 => retval
  | bits + 1 =>
    if exp > 0 then
      intPowLoop bits (if exp % 2 = 1 then retval * base % 2 ^ 32 else retval) (base * base % 2 ^ 32) (exp / 2)
    else retval

def intPow (base exp : ℕ) : ℕ := intPowLoop 32 1 base exp

/-- `while (value) { value >>= 1; ++power; }`, for a value of at most `bits` bits. -/
def countBits (bits value power : ℕ) : ℕ :=
  match bits with
  | 0 => power
  | bits + 1 => if value ≠ 0 then countBits bits (value / 2) (power + 1) else power

/-- `NearestPowerOf`: the power, and `rounded_bytes`.  A failed `CHECK_EQ` terminates. -/
def nearestPowerOf (base value : ℕ) : Outcome Empty (ℕ × ℕ) :=
  if base ≠ 2 then .terminated
  else if value = 0 then .ok (0, 1)
  else
    let power := countBits 64 (value - 1) 0
    if power < 64 then .ok (power, 2 ^ power) else .undefined

theorem intPowLoop_eq (bits retval base exp : ℕ) (hexp : exp < 2 ^ bits) (hretval : retval < 2 ^ 32) :
    intPowLoop bits retval base exp = retval * base ^ exp % 2 ^ 32 := by
  induction bits generalizing retval base exp with
  | zero =>
    obtain rfl : exp = 0 := by omega
    rw [intPowLoop, pow_zero, mul_one, Nat.mod_eq_of_lt hretval]
  | succ bits ih =>
    rw [intPowLoop]
    have hhalf : exp / 2 < 2 ^ bits := by
      rw [pow_succ] at hexp
      omega
    have hsquare : base ^ exp = (base * base) ^ (exp / 2) * base ^ (exp % 2) := by
      rw [← pow_two, ← pow_mul, ← pow_add, Nat.div_add_mod]
    split
    · have hretval' : (if exp % 2 = 1 then retval * base % 2 ^ 32 else retval) < 2 ^ 32 := by
        split
        · exact Nat.mod_lt _ (by decide)
        · exact hretval
      rw [ih _ _ _ hhalf hretval', hsquare, Nat.mul_mod, ← Nat.pow_mod]
      rcases Nat.mod_two_eq_zero_or_one exp with h | h
      · rw [h, if_neg (by decide), pow_zero, mul_one, ← Nat.mul_mod]
      · rw [h, if_pos rfl, pow_one, Nat.mod_mod, ← Nat.mul_mod, mul_assoc, mul_comm base]
    · next hexp =>
      obtain rfl : exp = 0 := by omega
      rw [pow_zero, mul_one, Nat.mod_eq_of_lt hretval]

/-- **`IntPow` is the power**, in 32 bits. -/
theorem intPow_eq {exp : ℕ} (base : ℕ) (h : exp < 2 ^ 32) : intPow base exp = base ^ exp % 2 ^ 32 := by
  rw [intPow, intPowLoop_eq 32 1 base exp h (by decide), one_mul]

theorem countBits_eq (bits value power : ℕ) (h : value < 2 ^ bits) : countBits bits value power = power + value.size := by
  induction bits generalizing value power with
  | zero =>
    obtain rfl : value = 0 := by omega
    rfl
  | succ bits ih =>
    rw [countBits]
    split
    · next hne =>
      have hhalf : value / 2 < 2 ^ bits := by
        rw [pow_succ] at h
        omega
      have hsize : value.size = (value / 2).size + 1 := by
        refine eq_of_forall_ge_iff fun n => ?_
        cases n with
        | zero => simp [Nat.size_eq_zero, hne]
        | succ n =>
          rw [Nat.size_le, Nat.succ_le_succ_iff, Nat.size_le, pow_succ]
          omega
      rw [ih _ _ hhalf, hsize]
      omega
    · next hz =>
      obtain rfl : value = 0 := by simpa using hz
      rfl

/-- **The power of a bin**: the least one that is large enough, up to half of the address space. -/
theorem nearestPowerOf_eq {value : ℕ} (h : value < 2 ^ 64) : nearestPowerOf 2 value =
    if value ≤ 2 ^ 63 then .ok (Nat.clog 2 value, 2 ^ Nat.clog 2 value) else .undefined := by
  rw [nearestPowerOf, if_neg (by decide)]
  split
  · next hz =>
    subst hz
    rfl
  · next hne =>
    have hpower : countBits 64 (value - 1) 0 = Nat.clog 2 value := by
      rw [countBits_eq _ _ _ (by omega), zero_add]
      refine eq_of_forall_ge_iff fun n => ?_
      rw [Nat.size_le, Nat.clog_le_iff_le_pow (by decide)]
      omega
    have hlt : Nat.clog 2 value < 64 ↔ value ≤ 2 ^ 63 := by
      rw [Nat.lt_succ_iff, Nat.clog_le_iff_le_pow (by decide)]
    simp only [hpower, hlt]

/-! ## Blocks -/

def invalidBin : ℕ := 2 ^ 32 - 1

/-- `BlockDescriptor`. -/
structure Block where
  dPtr : ℕ
  bytes : ℕ
  bin : ℕ
  device : ℤ
  associatedStream : ℕ
  readyEvent : ℕ
  deriving DecidableEq, Repr

namespace Block

def SizeCompare (a b : Block) : Prop := if a.device = b.device then a.bytes < b.bytes else a.device < b.device

def PtrCompare (a b : Block) : Prop := if a.device = b.device then a.dPtr < b.dPtr else a.device < b.device

instance : DecidableRel SizeCompare := fun _ _ => inferInstanceAs (Decidable (ite _ _ _))

instance : DecidableRel PtrCompare := fun _ _ => inferInstanceAs (Decidable (ite _ _ _))

/-- `BlockDescriptor(device)`. -/
def ofDevice (device : ℤ) : Block := ⟨0, 0, invalidBin, device, 0, 0⟩

/-- The stream of a handle is one of the device. -/
def stream (b : Block) : ℤ × ℕ := (b.device, b.associatedStream)

end Block

/-! ## The runtime -/

/-- What `cudaMalloc` has returned. -/
structure DeviceMemory where
  device : ℤ
  ptr : ℕ
  bytes : ℕ
  deriving DecidableEq, Repr

/-- On two devices, or with no byte in common, nor the address. -/
def DeviceMemory.Disjoint (a b : DeviceMemory) : Prop :=
  a.device = b.device → a.ptr ≠ b.ptr ∧ (a.ptr + a.bytes ≤ b.ptr ∨ b.ptr + b.bytes ≤ a.ptr)

instance (a b : DeviceMemory) : Decidable (a.Disjoint b) := inferInstanceAs (Decidable (_ → _))

/-- It does not start at the null pointer, and has an end. -/
def DeviceMemory.InSpace (m : DeviceMemory) : Prop := 0 < m.ptr ∧ m.ptr + m.bytes ≤ 2 ^ 64

instance (m : DeviceMemory) : Decidable m.InSpace := inferInstanceAs (Decidable (_ ∧ _))

def Block.memory (b : Block) : DeviceMemory := ⟨b.device, b.dPtr, b.bytes⟩

/-- Something that was submitted to a stream, behind `index` others, and uses the memory at `ptr`. -/
structure Work where
  stream : ℤ × ℕ
  index : ℕ
  ptr : ℕ
  deriving DecidableEq, Repr

/-- The state of the CUDA runtime.  A stream does its work in the order in which it was submitted. -/
structure Cuda where
  held : List DeviceMemory
  /-- The next event that is created. -/
  nextEvent : ℕ
  /-- The last record of an event: the stream, and how much had been submitted to it. -/
  recorded : ℕ → Option ((ℤ × ℕ) × ℕ)
  /-- `cudaEventQuery` of the event returns an error. -/
  queryFails : ℕ → Bool
  works : List Work
  launched : ℤ × ℕ → ℕ
  finished : ℤ × ℕ → ℕ

namespace Cuda

variable (c : Cuda)

/-- `cudaEventQuery` does not return `cudaErrorNotReady`: an event that was never recorded is ready, and so is one whose query
returns another error. -/
def ready (event : ℕ) : Bool :=
  c.queryFails event ||
    match c.recorded event with
    | none => true
    | some (stream, submitted) => decide (submitted ≤ c.finished stream)

/-- `cudaMalloc`. -/
def malloc (m : DeviceMemory) : Cuda := { c with held := c.held ++ [m] }

/-- `cudaFree`, which waits for the device. -/
def free (m : DeviceMemory) : Cuda :=
  { c with
    held := c.held.erase m
    finished := fun stream => if stream.1 = m.device then c.launched stream else c.finished stream }

/-- `cudaEventCreateWithFlags`. -/
def createEvent : Cuda := { c with nextEvent := c.nextEvent + 1 }

/-- `cudaEventRecord`. -/
def eventRecord (event : ℕ) (stream : ℤ × ℕ) : Cuda :=
  { c with recorded := Function.update c.recorded event (some (stream, c.launched stream)) }

/-- From now on `cudaEventQuery` of the event returns an error, or no longer does. -/
def query (event : ℕ) (fails : Bool) : Cuda := { c with queryFails := Function.update c.queryFails event fails }

/-- Something is submitted to a stream. -/
def launch (stream : ℤ × ℕ) (ptr : ℕ) : Cuda :=
  { c with
    works := c.works ++ [⟨stream, c.launched stream, ptr⟩]
    launched := Function.update c.launched stream (c.launched stream + 1) }

/-- The next of it is done. -/
def finish (stream : ℤ × ℕ) : Cuda :=
  { c with finished := Function.update c.finished stream (c.finished stream + 1) }

/-- It has not been done yet. -/
def Pending (w : Work) : Prop := w ∈ c.works ∧ c.finished w.stream ≤ w.index

end Cuda

/-! ## The allocator -/

/-- What the constructor is given and no call changes. -/
structure Config where
  binGrowth : ℕ
  minBin : ℕ
  maxBin : ℕ
  debug : Bool

def Config.minBinBytes (cfg : Config) : ℕ := intPow cfg.binGrowth cfg.minBin

structure TotalBytes where
  free : ℕ
  live : ℕ

/-- How far a call has come. -/
inductive Call where
  /-- `DeviceAllocate`, with its `search_key`, before the search. -/
  | searching (request : ℕ) (key : Block)
  /-- Before `cudaMalloc`; `again` says that the cached blocks have been freed for it. -/
  | mallocing (request : ℕ) (key : Block) (again : Bool)
  /-- `cudaMalloc` has returned `cudaErrorMemoryAllocation`. -/
  | flushing (request : ℕ) (key : Block)
  /-- Before `cudaEventCreateWithFlags`. -/
  | creating (request : ℕ) (key : Block)
  /-- Before the block is inserted into `live_blocks`. -/
  | inserting (request : ℕ) (block : Block)
  /-- `DeviceAllocate` has returned the block, and the caller has not yet called `DeviceFree`. -/
  | owning (request : ℕ) (block : Block)
  /-- It has returned an error, and the memory of the block is lost. -/
  | failed (lost : Option Block)
  /-- `DeviceAllocate` has returned an error, and the block is a live one. -/
  | leaked (block : Block)
  /-- `DeviceFree`, before the search, of the block. -/
  | freeing (block : Block)
  /-- The block is cached, and its event not yet recorded. -/
  | recording (block : Block)
  /-- The block is not cached, and not yet freed. -/
  | releasing (block : Block)
  /-- The pointer was not found. -/
  | wild (block : Block)
  /-- `FreeAllCached`, before the lock. -/
  | freeingAll
  /-- It has done everything, but for the `cudaSetDevice` that sets the device back, which may fail. -/
  | finished
  deriving DecidableEq, Repr

/-- The allocator, the calls, and the runtime. -/
structure State where
  maxCachedBytes : ℕ
  cachedBytes : ℤ → TotalBytes
  cachedBlocks : List Block
  liveBlocks : List Block
  calls : List Call
  cuda : Cuda
  /-- The sum of what the calls of `DeviceAllocate` have reported in `size_allocated`. -/
  sizeAllocated : ℕ
  /-- The sum of what the calls of `DeviceFree` have reported in `size_deallocated`. -/
  sizeDeallocated : ℕ

inductive Label where
  | setMaxCachedBytes (maxCachedBytes : ℕ)
  | deviceAllocate (device : ℤ) (bytes : ℕ) (stream : ℕ)
  /-- The caller that owns the block of the call `owner` frees it. -/
  | deviceFree (owner : ℕ)
  | freeAllCached
  /-- A call whose first `cudaGetDevice` fails, when no device is given. -/
  | getDeviceError
  /-- The next critical section of a call, or the call of the runtime that comes next. -/
  | go (call : ℕ)
  /-- `cudaMalloc` returns `ptr`. -/
  | malloc (call : ℕ) (ptr : ℕ)
  /-- It returns `cudaErrorMemoryAllocation`, or in the retry any error. -/
  | noMemory (call : ℕ)
  /-- It returns another error at the first attempt. -/
  | mallocError (call : ℕ)
  /-- The call of the runtime that comes next fails, or one that sets the device for it. -/
  | error (call : ℕ)
  /-- `DeviceFree` frees the memory, and `cudaEventDestroy` fails. -/
  | destroyError (call : ℕ)
  /-- The retry frees the memory of a cached block, and `cudaEventDestroy` fails. -/
  | retryDestroyError (call : ℕ)
  /-- `FreeAllCached` frees `blocks` blocks, and for the next one a call of the runtime fails: `cudaEventDestroy` if
  `destroying`, and one before it if not. -/
  | freeAllError (call blocks : ℕ) (destroying : Bool)
  | query (event : ℕ) (fails : Bool)
  /-- The caller that owns the block of the call `owner` submits something to its stream that uses the block. -/
  | launch (owner : ℕ)
  | finish (stream : ℤ × ℕ)
  deriving DecidableEq, Repr

/-- The `search_key` of a request, and whether its bin is one that is cached. -/
def searchKey (cfg : Config) (device : ℤ) (bytes stream : ℕ) : Outcome Empty (Block × Bool) :=
  nearestPowerOf cfg.binGrowth bytes >>= fun (power, rounded) =>
    let key := { Block.ofDevice device with associatedStream := stream }
    if power > cfg.maxBin then .ok ({ key with bin := invalidBin, bytes := bytes }, false)
    else if power < cfg.minBin then .ok ({ key with bin := cfg.minBin, bytes := cfg.minBinBytes }, true)
    else .ok ({ key with bin := power, bytes := rounded }, true)

namespace State

variable (s : State)

def move (i : ℕ) (c : Call) : State := { s with calls := s.calls.set i c }

/-- `cached_bytes[device]` changes. -/
def account (device : ℤ) (f : TotalBytes → TotalBytes) : State :=
  { s with cachedBytes := Function.update s.cachedBytes device (f (s.cachedBytes device)) }

/-- The test of the search: the block is of the stream, or its event is ready. -/
def usable (stream : ℕ) (block : Block) : Bool :=
  decide (stream = block.associatedStream) || s.cuda.ready block.readyEvent

/-- The search: from `lower_bound` as long as the device and the bin are those of the key. -/
def search (key : Block) : Option Block :=
  ((s.cachedBlocks.dropWhile fun block => decide (block.SizeCompare key)).takeWhile fun block =>
    decide (block.device = key.device ∧ block.bin = key.bin)).find? (s.usable key.associatedStream)

/-- A cached block becomes a live one of the stream. -/
def reuse (i request : ℕ) (key found : Block) : State :=
  let block := { found with associatedStream := key.associatedStream }
  move (account
    { s with
      liveBlocks := s.liveBlocks.orderedInsert Block.PtrCompare block
      cachedBlocks := s.cachedBlocks.erase found }
    key.device fun b => ⟨sizeSub b.free block.bytes, sizeAdd b.live block.bytes⟩) i (.owning request block)

/-- A new block becomes a live one. -/
def insert (i : ℕ) (block : Block) (c : Call) : State :=
  move (account
    { s with
      liveBlocks := s.liveBlocks.orderedInsert Block.PtrCompare block
      sizeAllocated := s.sizeAllocated + block.bytes }
    block.device fun b => { b with live := sizeAdd b.live block.bytes }) i c

/-- The block that `live_blocks.find` finds. -/
def findLive (key : Block) : Option Block :=
  s.liveBlocks.find? fun block => decide (block.device = key.device ∧ block.dPtr = key.dPtr)

/-- The bin of the block is valid, and the limit allows it to be cached. -/
def Recached (block : Block) : Prop :=
  block.bin ≠ invalidBin ∧ sizeAdd (s.cachedBytes block.device).free block.bytes ≤ s.maxCachedBytes

instance (block : Block) : Decidable (s.Recached block) := inferInstanceAs (Decidable (_ ∧ _))

/-- A live block becomes a cached one. -/
def recache (i : ℕ) (block : Block) : State :=
  move (account
    { s with
      liveBlocks := s.liveBlocks.erase block
      cachedBlocks := s.cachedBlocks.orderedInsert Block.SizeCompare block }
    block.device fun b => ⟨sizeAdd b.free block.bytes, sizeSub b.live block.bytes⟩) i (.recording block)

/-- A live block is taken out, to be freed. -/
def discard (i : ℕ) (block : Block) : State :=
  move (account
    { s with
      liveBlocks := s.liveBlocks.erase block
      sizeDeallocated := s.sizeDeallocated + block.bytes }
    block.device fun b => { b with live := sizeSub b.live block.bytes }) i (.releasing block)

/-- One round of the loop of `FreeAllCached`. -/
def freeFirst (block : Block) : State :=
  account { s with cuda := s.cuda.free block.memory } block.device fun b => { b with free := sizeSub b.free block.bytes }

def freeSome (n : ℕ) : State :=
  { (s.cachedBlocks.take n).foldl freeFirst s with cachedBlocks := s.cachedBlocks.drop n }

/-- `FreeAllCached`. -/
def freeAll : State := s.freeSome s.cachedBlocks.length

/-- The first cached block of the device. -/
def firstOn (device : ℤ) : Option Block :=
  (s.cachedBlocks.dropWhile fun block => decide (block.SizeCompare (.ofDevice device))).head?.filter (·.device = device)

/-- What a call does next.  To print what has been erased is undefined, and so is to go on from it. -/
def go (cfg : Config) (i : ℕ) : Call → Option (Outcome Empty State)
  | .searching request key =>
    match s.search key with
    | some found => if cfg.debug then some .undefined else some (.ok (s.reuse i request key found))
    | none => some (.ok (s.move i (.mallocing request key false)))
  | .flushing request key =>
    match s.firstOn key.device with
    | some _ => some .undefined
    | none => some (.ok (s.move i (.mallocing request key true)))
  | .creating request key =>
    some (.ok (move { s with cuda := s.cuda.createEvent } i
      (.inserting request { key with readyEvent := s.cuda.nextEvent })))
  | .inserting request block => some (.ok (s.insert i block (.owning request block)))
  | .freeing key =>
    match s.findLive key with
    | some block => some (.ok (if s.Recached block then s.recache i block else s.discard i block))
    | none => some (.ok (s.move i (.wild key)))
  | .recording block =>
    some (.ok (move { s with cuda := s.cuda.eventRecord block.readyEvent block.stream } i .finished))
  | .releasing block => some (.ok (move { s with cuda := s.cuda.free block.memory } i .finished))
  | .wild block => some (.ok (move { s with cuda := s.cuda.free block.memory } i (.failed none)))
  | .freeingAll =>
    if cfg.debug ∧ s.cachedBlocks ≠ [] then some .undefined else some (.ok (s.freeAll.move i .finished))
  | _ => none

/-- What a call does when the runtime fails. -/
def error (i : ℕ) : Call → Option State
  | .mallocing _ _ false => some (s.move i (.failed none))
  | .flushing _ key =>
    match s.firstOn key.device with
    | some _ => some (s.move i (.failed none))
    | none => none
  | .creating _ key => some (s.move i (.failed (some key)))
  -- the device is set back after the block has been inserted
  | .inserting _ block => some (s.insert i block (.leaked block))
  | .recording _ => some (s.move i (.failed none))
  | .releasing block => some (s.move i (.failed (some block)))
  | .wild _ => some (s.move i (.failed none))
  | _ => none

/-- `FreeAllCached` where the runtime fails for the block behind `n` others. -/
def freeAllError (cfg : Config) (i n : ℕ) (destroying : Bool) : Option (Outcome Empty State) :=
  match s.cachedBlocks[n]? with
  | some block =>
    if cfg.debug ∧ n ≠ 0 then some .undefined
    else
      let s := s.freeSome n
      some (.ok ((if destroying then { s with cuda := s.cuda.free block.memory } else s).move i (.failed none)))
  | none => none

/-- One step; `none` where it cannot happen: a block is used and freed by the caller that owns it, and freed once, and
`cudaMalloc` returns memory that is disjoint from all that is allocated. -/
def step (cfg : Config) : Label → Option (Outcome Empty State)
  | .setMaxCachedBytes maxCachedBytes => some (.ok { s with maxCachedBytes })
  | .deviceAllocate device bytes stream =>
    if bytes < 2 ^ 64 then
      some (searchKey cfg device bytes stream >>= fun (key, cached) =>
        .ok { s with calls := s.calls ++ [if cached then .searching bytes key else .mallocing bytes key false] })
    else none
  | .deviceFree owner =>
    match s.calls[owner]? with
    | some (.owning _ block) => some (.ok { s with calls := s.calls.set owner .finished ++ [.freeing block] })
    | _ => none
  | .freeAllCached => some (.ok { s with calls := s.calls ++ [.freeingAll] })
  | .getDeviceError => some (.ok { s with calls := s.calls ++ [.failed none] })
  | .go i => s.calls[i]?.bind (s.go cfg i)
  | .malloc i ptr =>
    match s.calls[i]? with
    | some (.mallocing request key _) =>
      let key := { key with dPtr := ptr }
      if key.memory.InSpace ∧ ∀ m ∈ s.cuda.held, m.Disjoint key.memory then
        some (.ok (move { s with cuda := s.cuda.malloc key.memory } i (.creating request key)))
      else none
    | _ => none
  | .noMemory i =>
    match s.calls[i]? with
    | some (.mallocing request key again) =>
      some (.ok (s.move i (if again then .failed none else .flushing request key)))
    | _ => none
  -- the error is overwritten: the call goes on with the null pointer
  | .mallocError i =>
    match s.calls[i]? with
    | some (.mallocing request key false) => some (.ok (s.move i (.creating request key)))
    | _ => none
  | .error i => (s.calls[i]?.bind (s.error i)).map .ok
  | .destroyError i =>
    match s.calls[i]? with
    | some (.releasing block) => some (.ok (move { s with cuda := s.cuda.free block.memory } i (.failed none)))
    | _ => none
  -- the block stays in the cache
  | .retryDestroyError i =>
    match s.calls[i]? with
    | some (.flushing _ key) =>
      (s.firstOn key.device).map fun block => .ok (move { s with cuda := s.cuda.free block.memory } i (.failed none))
    | _ => none
  | .freeAllError i n destroying =>
    match s.calls[i]? with
    | some .freeingAll => s.freeAllError cfg i n destroying
    | _ => none
  | .query event fails => some (.ok { s with cuda := s.cuda.query event fails })
  | .launch owner =>
    match s.calls[owner]? with
    | some (.owning _ block) => some (.ok { s with cuda := s.cuda.launch block.stream block.dPtr })
    | _ => none
  | .finish stream =>
    if s.cuda.finished stream < s.cuda.launched stream then some (.ok { s with cuda := s.cuda.finish stream }) else none

end State

def Cuda.start : Cuda := ⟨[], 1, fun _ => none, fun _ => false, [], fun _ => 0, fun _ => 0⟩

def State.start (maxCachedBytes : ℕ) : State := ⟨maxCachedBytes, fun _ => ⟨0, 0⟩, [], [], [], .start, 0, 0⟩

/-- Any calls of a new allocator. -/
def cachingAllocator (cfg : Config) (maxCachedBytes : ℕ) : Machine (Outcome Empty State) Label where
  init := .ok (.start maxCachedBytes)
  step
    | .ok s, a => s.step cfg a
    | _, _ => none

end Nessus.Memory.Caching
