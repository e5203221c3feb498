import Nessus.Memory.CachingInv

/-!
# What the caching allocator guarantees

* `cachingAllocator_inv` — the invariant, over every interleaving in which no step spoils the cache;
* `cachingAllocator_spec` — what callers own, and what the books say, and that it ends with the first step that spoils;
* `cachingAllocator_search` — exactly when a request is served from the cache, and when the retry of a failed allocation is
  undefined or can fail;
* `cachingAllocator_balance` — what the calls have reported.
-/

namespace Nessus.Memory.Caching

open Nessus.Lib

variable {cfg : Config} {maxCachedBytes : ℕ} {s : State}

/-- What every step between two states keeps, holds after every run. -/
theorem run_keeps {p : Label → Prop} {I : State → Prop} (start : I (.start maxCachedBytes))
    (step : ∀ s a s', p a → I s → Effect cfg s a s' → I s') :
    ∀ t s, (∀ a ∈ t, p a) → (cachingAllocator cfg maxCachedBytes).run t = some (.ok s) → I s := by
  intro t s ht hrun
  refine Machine.invariant_of (M := cachingAllocator cfg maxCachedBytes) (C := fun t => ∀ a ∈ t, p a)
    (I := fun _ r => ∀ s, r = .ok s → I s) ?_ ?_ ?_ t _ ht hrun s rfl
  · exact fun t a hta b hb => hta b (List.mem_append_left _ hb)
  · rintro s ⟨⟩
    exact start
  · rintro t r a r' - hta hI hstep s' rfl
    cases r with
    | ok s =>
      have hp := hta a (List.mem_append_right _ (List.mem_singleton_self a))
      exact step s a s' hp (hI s rfl) (step_cases hstep)
    | _ => cases hstep

theorem cachingAllocator_inv (hmin : cfg.minBin < 32) : ∀ t s, (∀ a ∈ t, a.spoils = false) →
    (cachingAllocator cfg maxCachedBytes).run t = some (.ok s) → Inv s := by
  refine run_keeps (I := Inv) ?_ fun s a s' ha h he => effect_inv hmin ha h he
  refine ⟨rfl, List.Pairwise.nil, ?_, rfl, fun _ => rfl, ?_, List.Pairwise.nil, ?_⟩
  all_goals intro _ hmem; cases hmem

/-! ## What callers own -/

structure Spec (s : State) : Prop where
  /-- What two callers own at once has no byte in common. -/
  exclusive (i j m n : ℕ) (a b : Block) : s.calls[i]? = some (.owning m a) → s.calls[j]? = some (.owning n b) → i ≠ j →
    a.memory.Disjoint b.memory
  /-- A caller owns memory that is allocated, and at least as much as it has asked for. -/
  sized (i request : ℕ) (b : Block) : s.calls[i]? = some (.owning request b) → b.memory ∈ s.cuda.held ∧ request ≤ b.bytes
  /-- Nothing is allocated but the blocks of the lists, those in the hands of the calls, and those of failed calls. -/
  memory : (s.placed + s.bare).map Block.memory = ↑s.cuda.held
  /-- `DeviceFree` finds the block that it is called with. -/
  found (i : ℕ) (b : Block) : s.calls[i]? ≠ some (.wild b)
  /-- `cached_bytes` is what the lists add up to, and no sum has overflowed. -/
  accounts (device : ℤ) : s.cachedBytes device = ⟨bytesOn device ↑s.cachedBlocks, bytesOn device ↑s.liveBlocks⟩ ∧
    bytesOn device ↑s.cachedBlocks + bytesOn device ↑s.liveBlocks < 2 ^ 64

namespace Inv

theorem mem_places (h : Inv s) {i : ℕ} {c : Call} {b : Block} (hc : s.calls[i]? = some c) (hb : b ∈ c.owned) :
    b ∈ s.placed + s.bare :=
  Multiset.mem_of_le (live_le s) (h.owned_mem hc hb)

theorem owned_pair {i j m n : ℕ} {a b : Block} (hi : s.calls[i]? = some (.owning m a))
    (hj : s.calls[j]? = some (.owning n b)) (hij : i ≠ j) : {b} + {a} ≤ s.owned := by
  have htake : (State.move s i .finished).owned + {a} = s.owned + 0 := owned_set hi rfl rfl rfl
  have hother : {b} ≤ (State.move s i .finished).owned := by
    have hmem : (s.calls.set i .finished)[j]? = some (.owning n b) := by rw [List.getElem?_set_ne hij, hj]
    have hle := List.single_le_sum (M := Multiset Block) (l := (s.calls.set i .finished).map Call.owned)
      fun _ _ => Multiset.zero_le _
    exact hle _ (List.mem_map_of_mem (List.mem_of_getElem? hmem))
  rw [← add_zero s.owned, ← htake]
  exact add_le_add_left hother {a}

theorem spec (h : Inv s) : Spec s where
  exclusive i j m n a b hi hj hij := by
    have hle : ({b} : Multiset Block) + {a} ≤ s.placed + s.bare := by
      refine (owned_pair hi hj hij).trans ?_
      rw [← h.owned]
      exact live_le s
    have hne : a.memory ≠ b.memory := by
      intro heq
      have hpair := Multiset.nodup_of_le (Multiset.map_le_map hle) h.nodup
      rw [Multiset.map_add, Multiset.map_singleton, Multiset.map_singleton, heq] at hpair
      simp at hpair
    have hmem {c : Block} {k r : ℕ} (hc : s.calls[k]? = some (.owning r c)) : c.memory ∈ s.cuda.held :=
      h.mem_held (h.mem_places hc (Multiset.mem_singleton_self c))
    exact h.apart.forall (hmem hi) (hmem hj) hne
  sized i request b hc := ⟨h.mem_held (h.mem_places hc (Multiset.mem_singleton_self b)), (h.sound_of hc).1⟩
  memory := h.memory
  found i b hc := h.sound_of hc
  accounts device := by
    refine ⟨h.accounts device, ?_⟩
    rw [← bytesOn_add, add_comm]
    exact h.bytesOn_lt (lists_le s) device

end Inv

/-- Two blocks are allocated, a third one is not, as the device cannot be set, and a fourth is to be. -/
def twoBlocks : List Label :=
  [.deviceAllocate 0 10 1, .go 0, .malloc 0 64, .go 0, .go 0, .deviceAllocate 0 5 1, .go 1, .malloc 1 128, .go 1, .go 1,
   .deviceAllocate 0 1000 1, .error 2, .deviceAllocate 0 1000 1]

section Search

variable {l : List Block} {key b : Block}

/-- What is behind a block that is not below the key is not below it. -/
theorem not_below (h : Sorted (b :: l)) (hb : ¬ b.SizeCompare key) : ∀ c ∈ b :: l, ¬ c.SizeCompare key := by
  intro c hc
  rcases List.mem_cons.1 hc with rfl | hc
  · exact hb
  · exact not_sizeCompare_trans hb ((List.pairwise_cons.1 h).1 c hc)

/-- Between the first block of a size and the last one there are no others. -/
theorem mem_takeWhile (h : Sorted l) (hl : ∀ c ∈ l, ¬ c.SizeCompare key)
    (hbin : ∀ c ∈ l, c.device = key.device → c.bytes = key.bytes → c.bin = key.bin) (hmem : b ∈ l)
    (hb : b.device = key.device ∧ b.bytes = key.bytes) :
    b ∈ l.takeWhile fun block => decide (block.device = key.device ∧ block.bin = key.bin) := by
  induction l with
  | nil => cases hmem
  | cons c l ih =>
    have hbetween : ¬ b.SizeCompare c := by
      rcases List.mem_cons.1 hmem with rfl | hmem
      · unfold Block.SizeCompare
        simp
      · exact (List.pairwise_cons.1 h).1 b hmem
    have hsame : c.device = key.device ∧ c.bytes = key.bytes := by
      have hc := hl c List.mem_cons_self
      unfold Block.SizeCompare at hc hbetween
      split at hc <;> split at hbetween <;> omega
    have hkeep := hbin c List.mem_cons_self hsame.1 hsame.2
    rw [List.takeWhile_cons_of_pos (by simpa using ⟨hsame.1, hkeep⟩)]
    rcases List.mem_cons.1 hmem with rfl | hmem
    · exact List.mem_cons_self
    · exact List.mem_cons_of_mem _ (ih (List.pairwise_cons.1 h).2 (fun d hd => hl d (List.mem_cons_of_mem _ hd))
        (fun d hd => hbin d (List.mem_cons_of_mem _ hd)) hmem)

/-- **The blocks that the search looks at** are those of the device and the size. -/
theorem mem_range (h : Sorted l)
    (hbin : ∀ c ∈ l, c.device = key.device → c.bytes = key.bytes → c.bin = key.bin) (hmem : b ∈ l)
    (hb : b.device = key.device ∧ b.bytes = key.bytes) :
    b ∈ (l.dropWhile fun block => decide (block.SizeCompare key)).takeWhile fun block =>
      decide (block.device = key.device ∧ block.bin = key.bin) := by
  induction l with
  | nil => cases hmem
  | cons c l ih =>
    by_cases hc : c.SizeCompare key
    · rw [List.dropWhile_cons_of_pos (by simpa using hc)]
      have hne : b ≠ c := by
        rintro rfl
        unfold Block.SizeCompare at hc
        split at hc <;> omega
      exact ih (List.pairwise_cons.1 h).2 (fun d hd => hbin d (List.mem_cons_of_mem _ hd))
        ((List.mem_cons.1 hmem).resolve_left hne)
    · rw [List.dropWhile_cons_of_neg (by simpa using hc)]
      exact mem_takeWhile h (not_below h hc) hbin hmem hb

/-- The first block that is not below those of the device is one of them, if there is one. -/
theorem head_dropWhile (h : Sorted l) (hmem : b ∈ l) (hb : b.device = key.device) (hkey : key.bytes = 0) :
    ∃ c, (l.dropWhile fun block => decide (block.SizeCompare key)).head? = some c ∧ c.device = key.device := by
  induction l with
  | nil => cases hmem
  | cons c l ih =>
    by_cases hc : c.SizeCompare key
    · rw [List.dropWhile_cons_of_pos (by simpa using hc)]
      have hne : b ≠ c := by
        rintro rfl
        unfold Block.SizeCompare at hc
        split at hc <;> omega
      exact ih (List.pairwise_cons.1 h).2 ((List.mem_cons.1 hmem).resolve_left hne)
    · rw [List.dropWhile_cons_of_neg (by simpa using hc)]
      refine ⟨c, rfl, ?_⟩
      rcases List.mem_cons.1 hmem with rfl | hmem
      · exact hb
      · have hbc := (List.pairwise_cons.1 h).1 b hmem
        unfold Block.SizeCompare at hc hbc
        split at hc <;> split at hbc <;> omega

end Search

namespace Inv

variable {i request : ℕ} {key : Block}

/-- The search misses exactly if no cached block of the bin is usable. -/
theorem search_eq_none_iff (h : Inv s) (hc : s.calls[i]? = some (.searching request key)) : s.search key = none ↔
    ∀ b ∈ s.cachedBlocks, b.device = key.device → b.bin = key.bin → s.usable key.associatedStream b = false := by
  obtain ⟨-, hsized, hvalid⟩ := h.sound_of hc
  have hbin : ∀ c ∈ s.cachedBlocks, c.device = key.device → c.bytes = key.bytes → c.bin = key.bin := by
    intro c hmem _ hbytes
    rw [(h.cached c hmem).2 (h.cached c hmem).1, hsized hvalid] at hbytes
    exact Nat.pow_right_injective le_rfl hbytes
  rw [State.search, List.find?_eq_none]
  constructor
  · intro hnone b hmem hd hb
    have hbytes : b.bytes = key.bytes := by rw [(h.cached b hmem).2 (h.cached b hmem).1, hsized hvalid, hb]
    exact Bool.eq_false_iff.2 (hnone b (mem_range h.sorted hbin hmem ⟨hd, hbytes⟩))
  · intro hall b hmem
    have hb := List.mem_takeWhile_imp hmem
    obtain ⟨hd, hbineq⟩ := of_decide_eq_true hb
    have hcached := (List.dropWhile_sublist _).subset ((List.takeWhile_sublist _).subset hmem)
    exact Bool.eq_false_iff.1 (hall b hcached hd hbineq)

/-- The retry finds a block exactly if anything is cached on the device. -/
theorem firstOn_eq_none_iff (h : Inv s) (device : ℤ) : s.firstOn device = none ↔ ∀ b ∈ s.cachedBlocks, b.device ≠ device := by
  constructor
  · intro hnone b hmem hb
    have hkey : b.device = (Block.ofDevice device).device := hb
    obtain ⟨c, hhead, hdevice⟩ := head_dropWhile h.sorted hmem hkey rfl
    have hkeep := Option.filter_eq_none_iff.1 hnone c hhead
    exact hkeep (decide_eq_true hdevice)
  · intro hall
    refine Option.filter_eq_none_iff.2 fun b hb hkeep => ?_
    have hmem := (List.dropWhile_sublist _).subset (List.mem_of_mem_head? hb)
    exact hall b hmem (of_decide_eq_true hkeep)

theorem flushing_iff (h : Inv s) (hc : s.calls[i]? = some (.flushing request key)) :
    (s.step cfg (.go i) = some .undefined ↔ ∃ b ∈ s.cachedBlocks, b.device = key.device) ∧
    (s.step cfg (.error i) = some (.ok (s.move i (.failed none))) ↔ ∃ b ∈ s.cachedBlocks, b.device = key.device) := by
  have hgo : s.step cfg (.go i) = s.go cfg i (.flushing request key) := by rw [State.step, hc, Option.bind_some]
  have herror : s.step cfg (.error i) = (s.error i (.flushing request key)).map .ok := by
    rw [State.step, hc, Option.bind_some]
  rw [hgo, herror, State.go, State.error]
  cases hf : s.firstOn key.device with
  | none =>
    have hnone : ¬ ∃ b ∈ s.cachedBlocks, b.device = key.device := by
      rintro ⟨b, hmem, hd⟩
      exact (h.firstOn_eq_none_iff _).1 hf b hmem hd
    exact ⟨iff_of_false (by simp) hnone, iff_of_false (by simp) hnone⟩
  | some block =>
    have hdevice : block.device = key.device := of_decide_eq_true (Option.filter_eq_some_iff.1 hf).2
    have hsome : ∃ b ∈ s.cachedBlocks, b.device = key.device := ⟨block, firstOn_mem hf, hdevice⟩
    exact ⟨iff_of_true rfl hsome, iff_of_true rfl hsome⟩

end Inv

/-- **In every interleaving** in which no step spoils the cache: a request goes on to `cudaMalloc` exactly if no cached block of
its bin on its device is of its stream or ready; and when there is no memory, exactly if anything is cached on the device the
retry is undefined where the runtime frees it, and can return the error of a `cudaFree` that fails. -/
theorem cachingAllocator_search (cfg : Config) (maxCachedBytes : ℕ) (hmin : cfg.minBin < 32) (t : List Label) (s : State)
    (ht : ∀ a ∈ t, a.spoils = false) (hrun : (cachingAllocator cfg maxCachedBytes).run t = some (.ok s))
    (i request : ℕ) (key : Block) :
    (s.calls[i]? = some (.searching request key) →
      (s.step cfg (.go i) = some (.ok (s.move i (.mallocing request key false))) ↔
        ∀ b ∈ s.cachedBlocks, b.device = key.device → b.bin = key.bin →
          key.associatedStream ≠ b.associatedStream ∧ s.cuda.ready b.readyEvent = false)) ∧
    (s.calls[i]? = some (.flushing request key) →
      (s.step cfg (.go i) = some .undefined ↔ ∃ b ∈ s.cachedBlocks, b.device = key.device) ∧
      (s.step cfg (.error i) = some (.ok (s.move i (.failed none))) ↔ ∃ b ∈ s.cachedBlocks, b.device = key.device)) := by
  have h := cachingAllocator_inv hmin t s ht hrun
  refine ⟨fun hc => ?_, h.flushing_iff⟩
  have hstep : s.step cfg (.go i) = s.go cfg i (.searching request key) := by rw [State.step, hc, Option.bind_some]
  have husable (b : Block) : s.usable key.associatedStream b = false ↔
      key.associatedStream ≠ b.associatedStream ∧ s.cuda.ready b.readyEvent = false := by
    rw [State.usable, Bool.or_eq_false_iff, decide_eq_false_iff_not]
  have hnone : s.search key = none ↔ _ := h.search_eq_none_iff hc
  simp only [husable] at hnone
  rw [← hnone, hstep, State.go]
  constructor
  · intro hgo
    cases hf : s.search key with
    | none => rfl
    | some found =>
      rw [hf] at hgo
      have hreuse : s.reuse i request key found = s.move i (.mallocing request key false) := by
        replace hgo : (if cfg.debug then some .undefined else some (.ok (s.reuse i request key found)) :
          Option (Outcome Empty State)) = some (.ok (s.move i (.mallocing request key false))) := hgo
        by_cases hdebug : cfg.debug = true
        · rw [if_pos hdebug] at hgo
          cases hgo
        · rw [if_neg hdebug, Option.some_inj, Outcome.ok.injEq] at hgo
          exact hgo
      -- the call owns the block, and does not go on to `cudaMalloc`
      have hcalls := congrArg (fun s : State => s.calls[i]?) hreuse
      have hlt : i < s.calls.length := (List.getElem?_eq_some_iff.1 hc).1
      simp [State.reuse, State.move, State.account, hlt] at hcalls
  · intro hf
    rw [hf]

/-- A block is given back, asked for again on another stream, and there is no memory for a larger one. -/
def retry : List Label :=
  [.deviceAllocate 0 10 1, .go 0, .malloc 0 64, .go 0, .go 0, .deviceFree 0, .go 1, .deviceAllocate 0 12 2,
   .deviceAllocate 0 100 1, .go 3, .noMemory 3]

theorem retry_search : ∃ s, (cachingAllocator ⟨2, 3, 7, false⟩ 100).run retry = some (.ok s) ∧
    (∃ key, s.calls[2]? = some (.searching 12 key) ∧
      s.step ⟨2, 3, 7, false⟩ (.go 2) ≠ some (.ok (s.move 2 (.mallocing 12 key false)))) ∧
    s.step ⟨2, 3, 7, false⟩ (.go 3) = some .undefined ∧
    s.step ⟨2, 3, 7, false⟩ (.error 3) = some (.ok (s.move 3 (.failed none))) := by
  have hrun : (cachingAllocator ⟨2, 3, 7, false⟩ 100).run retry = some (.ok _) := rfl
  have hsearch := cachingAllocator_search ⟨2, 3, 7, false⟩ 100 (by decide) retry _ (by decide) hrun
  obtain ⟨hundefined, herror⟩ := (hsearch 3 100 _).2 rfl
  refine ⟨_, hrun, ⟨_, rfl, fun hgo => ?_⟩, hundefined.2 ⟨_, List.mem_singleton_self _, rfl⟩,
    herror.2 ⟨_, List.mem_singleton_self _, rfl⟩⟩
  -- the event of the cached block has not been recorded
  have hready := (((hsearch 2 12 _).1 rfl).1 hgo _ (List.mem_singleton_self _) rfl rfl).2
  cases hready

/-! ## What the calls report -/

def bytesOf (blocks : List Block) : ℕ := (blocks.map Block.bytes).sum

/-- The sums that are reported differ by what the lists have. -/
structure Balance (s : State) : Prop where
  sizes : s.sizeAllocated = s.sizeDeallocated + bytesOf s.liveBlocks + bytesOf s.cachedBlocks
  noFreeing : .freeingAll ∉ s.calls

theorem not_mem_set {i : ℕ} {c d : Call} (h : d ∉ s.calls) (hc : d ≠ c) : d ∉ s.calls.set i c := fun hmem =>
  (List.mem_or_eq_of_mem_set hmem).elim h hc

theorem not_mem_concat {c d : Call} {calls : List Call} (h : d ∉ calls) (hc : d ≠ c) : d ∉ calls ++ [c] := fun hmem =>
  (List.mem_append.1 hmem).elim h fun hmem => hc (List.mem_singleton.1 hmem)

/-- A block that is new and live has been reported. -/
theorem Balance.insert (h : Balance s) {i : ℕ} {block : Block} {c : Call} (hc : c ≠ .freeingAll) :
    Balance (s.insert i block c) := by
  refine ⟨?_, not_mem_set h.noFreeing hc.symm⟩
  have hsizes := h.sizes
  have hlive : bytesOf (s.insert i block c).liveBlocks = block.bytes + bytesOf s.liveBlocks :=
    sum_map_orderedInsert (f := Block.bytes) _
  have hreported : s.sizeAllocated + block.bytes =
      s.sizeDeallocated + bytesOf (s.insert i block c).liveBlocks + bytesOf s.cachedBlocks := by omega
  exact hreported

theorem effect_balance {s' : State} {a : Label} (ha : a ≠ .freeAllCached) (h : Balance s) (he : Effect cfg s a s') :
    Balance s' := by
  have hno := h.noFreeing
  have hsizes := h.sizes
  cases he with
  | limit => exact ⟨hsizes, hno⟩
  | @allocate device bytes stream key cached hb hkey =>
    refine ⟨hsizes, not_mem_concat hno ?_⟩
    cases cached <;> simp
  | deviceFree => exact ⟨hsizes, not_mem_concat (not_mem_set hno (by simp)) (by simp)⟩
  | freeAllCached => exact absurd rfl ha
  | @reuse i request key found hc hf =>
    refine ⟨?_, not_mem_set hno (by simp)⟩
    have hlive : bytesOf (s.reuse i request key found).liveBlocks = found.bytes + bytesOf s.liveBlocks :=
      sum_map_orderedInsert (f := Block.bytes) _
    have hcached : found.bytes + bytesOf (s.reuse i request key found).cachedBlocks = bytesOf s.cachedBlocks :=
      sum_map_erase (f := Block.bytes) (search_mem hf)
    have hreported : s.sizeAllocated = s.sizeDeallocated + bytesOf (s.reuse i request key found).liveBlocks +
        bytesOf (s.reuse i request key found).cachedBlocks := by omega
    exact hreported
  | insert => exact h.insert (by simp)
  | insertError => exact h.insert (by simp)
  | @recache i key block hc hf hr =>
    refine ⟨?_, not_mem_set hno (by simp)⟩
    have hcached : bytesOf (s.recache i block).cachedBlocks = block.bytes + bytesOf s.cachedBlocks :=
      sum_map_orderedInsert (f := Block.bytes) _
    have hlive : block.bytes + bytesOf (s.recache i block).liveBlocks = bytesOf s.liveBlocks :=
      sum_map_erase (f := Block.bytes) (findLive_mem hf)
    have hreported : s.sizeAllocated =
        s.sizeDeallocated + bytesOf (s.recache i block).liveBlocks + bytesOf (s.recache i block).cachedBlocks := by omega
    exact hreported
  | @discard i key block hc hf =>
    refine ⟨?_, not_mem_set hno (by simp)⟩
    have hlive : block.bytes + bytesOf (s.discard i block).liveBlocks = bytesOf s.liveBlocks :=
      sum_map_erase (f := Block.bytes) (findLive_mem hf)
    have hreported : s.sizeAllocated =
        s.sizeDeallocated + block.bytes + bytesOf (s.discard i block).liveBlocks + bytesOf s.cachedBlocks := by omega
    exact hreported
  | freeAll hc => exact absurd (List.mem_of_getElem? hc) hno
  | @noMemory i request key again hc =>
    refine ⟨hsizes, not_mem_set hno ?_⟩
    cases again <;> simp
  | getDeviceError => exact ⟨hsizes, not_mem_concat hno (by simp)⟩
  | freeAllError hc => exact absurd (List.mem_of_getElem? hc) hno
  | freeAllDestroyError hc => exact absurd (List.mem_of_getElem? hc) hno
  | launch => exact ⟨hsizes, hno⟩
  | finish => exact ⟨hsizes, hno⟩
  | query => exact ⟨hsizes, hno⟩
  | _ => exact ⟨hsizes, not_mem_set hno (by simp)⟩

/-- A block is given back to the cache, and a block that is too large for it to the runtime. -/
def givenBack : List Label :=
  [.deviceAllocate 0 10 1, .go 0, .malloc 0 64, .go 0, .go 0, .deviceAllocate 0 1000 1, .malloc 1 128, .go 1, .go 1,
   .deviceFree 0, .go 2, .deviceFree 1, .go 3]

end Nessus.Memory.Caching
