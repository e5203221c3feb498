import Mathlib.Data.Nat.Notation
import Mathlib.Algebra.Order.Ring.Nat
import Nessus.Lib.Outcome

/-!
# Loops that write into an array

Nests of loops whose rounds write to an array, as the list of what they write and where.

* `readAt`, `writeAt`, `memcpy` — memory accesses, undefined out of bounds;
* `writes`, `WritesAs` — writes one after the other, and what it means for a piece of code to be such;
  `WritesAs.forTo` is the rule for a loop;
* `getElem?_writes_of_mem`, `getElem?_writes_of_forall` — **what an array holds after it**, where writes that overlap
  agree;
* `Block`, `copyBlocks`, `Moves` — blocks that are copied, and which place goes where; `getElem?_copyBlocks` is the
  same for them;
* `digits_inj` — the digits of a number in mixed radix.
-/

namespace Nessus.Lib

open Outcome

variable {ε α σ : Type}

/-- `for (int i = 0; i < n; i++)`, where the body changes `s`. -/
def forTo (n : ℕ) (body : ℕ → σ → Outcome ε σ) (s : σ) : Outcome ε σ := (List.range n).foldlM (fun s i => body i s) s

theorem forTo_of_ok {n : ℕ} {body : ℕ → σ → Outcome ε σ} (state : ℕ → σ)
    (h : ∀ i < n, body i (state i) = .ok (state (i + 1))) : forTo n body (state 0) = .ok (state n) := by
  rw [forTo]
  induction n with
  | zero => rfl
  | succ n ih =>
    rw [List.range_succ, List.foldlM_append, ih fun i hi => h i (Nat.lt_succ_of_lt hi), ok_bind, List.foldlM_cons,
      h n (Nat.lt_succ_self n), ok_bind, List.foldlM_nil, pure_eq]

/-! ## Memory -/

/-- The `n` elements from `s` on. -/
def readAt (src : List α) (s n : ℕ) : Outcome ε (List α) :=
  if s + n ≤ src.length then .ok ((src.drop s).take n) else .undefined

/-- The elements from `d` on are replaced. -/
def splice (l : List α) (d : ℕ) (vs : List α) : List α := l.take d ++ vs ++ l.drop (d + vs.length)

/-- The elements from `d` on are written. -/
def writeAt (l : List α) (d : ℕ) (vs : List α) : Outcome ε (List α) :=
  if d + vs.length ≤ l.length then .ok (splice l d vs) else .undefined

/-- `memcpy(dst + d, src + s, n)`. -/
def memcpy (src : List α) (s n d : ℕ) (dst : List α) : Outcome ε (List α) :=
  readAt src s n >>= writeAt dst d

section Splice

variable {l vs : List α} {d i : ℕ}

theorem length_splice (h : d + vs.length ≤ l.length) : (splice l d vs).length = l.length := by
  simp only [splice, List.length_append, List.length_take, List.length_drop]
  omega

theorem getElem?_splice_of_lt (h : d + vs.length ≤ l.length) (hi : i < vs.length) : (splice l d vs)[d + i]? = vs[i]? := by
  have hlen : (l.take d).length = d := by
    rw [List.length_take]
    omega
  rw [splice, List.append_assoc, List.getElem?_append_right (by omega), hlen, Nat.add_sub_cancel_left,
    List.getElem?_append_left hi]

theorem getElem?_splice_of_not (h : d + vs.length ≤ l.length) (hi : i < d ∨ d + vs.length ≤ i) :
    (splice l d vs)[i]? = l[i]? := by
  rcases hi with hi | hi
  · rw [splice, List.append_assoc, List.getElem?_append_left (by simp; omega), List.getElem?_take_of_lt hi]
  · have hlen : (l.take d ++ vs).length = d + vs.length := by
      simp only [List.length_append, List.length_take]
      omega
    rw [splice, List.getElem?_append_right (by omega), hlen, List.getElem?_drop, Nat.add_sub_cancel' hi]

theorem drop_take_splice (h : d + vs.length ≤ l.length) : ((splice l d vs).drop d).take vs.length = vs := by
  have htake : (l.take d).length = d := by
    rw [List.length_take]
    omega
  rw [splice, List.append_assoc, List.drop_append_of_le_length (by omega), List.drop_of_length_le (by omega),
    List.nil_append, List.take_append_of_le_length (Nat.le_refl _), List.take_length]

theorem writeAt_append {old : List α} (rest : List α) (h : vs.length = old.length) :
    (writeAt (l ++ (old ++ rest)) l.length vs : Outcome ε (List α)) = .ok (l ++ (vs ++ rest)) := by
  have hdrop : (l ++ (old ++ rest)).drop (l.length + vs.length) = rest := by
    rw [← List.drop_drop, List.drop_left, h, List.drop_left]
  rw [writeAt, if_pos (by simp [h]), splice, List.take_left, hdrop, List.append_assoc]

end Splice

/-! ## Writes -/

/-- The writes one after the other: what is written, and where. -/
def writes (ws : List (ℕ × List α)) (l : List α) : List α := ws.foldl (fun l w => splice l w.1 w.2) l

def Fits (L : ℕ) (ws : List (ℕ × List α)) : Prop := ∀ w ∈ ws, w.1 + w.2.length ≤ L

def Covers (w : ℕ × List α) (i : ℕ) : Prop := w.1 ≤ i ∧ i < w.1 + w.2.length

section Writes

variable {L : ℕ} {ws : List (ℕ × List α)} {w : ℕ × List α} {l : List α} {i k : ℕ}

theorem Fits.head (h : Fits L (w :: ws)) : w.1 + w.2.length ≤ L := h w List.mem_cons_self

theorem Fits.tail (h : Fits L (w :: ws)) : Fits L ws := fun v hv => h v (List.mem_cons_of_mem w hv)

theorem length_writes (h : Fits l.length ws) : (writes ws l).length = l.length := by
  induction ws generalizing l with
  | nil => rfl
  | cons w ws ih =>
    have hlen := length_splice h.head
    exact (ih (hlen.symm ▸ h.tail)).trans hlen

theorem getElem?_writes_of_forall (h : Fits l.length ws) (hi : ∀ w ∈ ws, ¬ Covers w i) : (writes ws l)[i]? = l[i]? := by
  induction ws generalizing l with
  | nil => rfl
  | cons w ws ih =>
    have hlen := length_splice h.head
    have hw : ¬ Covers w i := hi w List.mem_cons_self
    have hrest := ih (hlen.symm ▸ h.tail) fun v hv => hi v (List.mem_cons_of_mem w hv)
    refine Eq.trans hrest (getElem?_splice_of_not h.head ?_)
    simp only [Covers] at hw
    omega

/-- **What is written is there**, if the writes to a place agree on it. -/
theorem getElem?_writes_of_mem (h : Fits l.length ws) (hw : w ∈ ws) (hk : k < w.2.length)
    (hagree : ∀ v ∈ ws, ∀ j < v.2.length, v.1 + j = w.1 + k → v.2[j]? = w.2[k]?) :
    (writes ws l)[w.1 + k]? = w.2[k]? := by
  induction ws generalizing l w k with
  | nil => cases hw
  | cons v ws ih =>
    have hlen := length_splice h.head
    have hfits : Fits (splice l v.1 v.2).length ws := hlen.symm ▸ h.tail
    have hagree' : ∀ u ∈ ws, ∀ j < u.2.length, u.1 + j = w.1 + k → u.2[j]? = w.2[k]? := fun u hu =>
      hagree u (List.mem_cons_of_mem v hu)
    by_cases hlater : ∃ u ∈ ws, Covers u (w.1 + k)
    · -- the place is written once more, by a write that agrees
      obtain ⟨u, hu, hle, hlt⟩ := hlater
      obtain ⟨j, hj⟩ := Nat.exists_eq_add_of_le hle
      have hjlt : j < u.2.length := by omega
      have hsame := hagree' u hu j hjlt hj.symm
      have hrest := ih hfits hu hjlt fun u' hu' j' hj' heq => (hagree' u' hu' j' hj' (heq.trans hj.symm)).trans hsame.symm
      rw [← hsame, hj]
      exact hrest
    · have hrest := getElem?_writes_of_forall hfits fun u hu hcovers => hlater ⟨u, hu, hcovers⟩
      rcases List.mem_cons.1 hw with rfl | hw
      · exact hrest.trans (getElem?_splice_of_lt h.head hk)
      · exact absurd ⟨w, hw, Nat.le_add_right _ _, by omega⟩ hlater

end Writes

/-! ## Code that writes -/

/-- The code writes this to an array of `L` elements. -/
structure WritesAs (L : ℕ) (f : List α → Outcome ε (List α)) (ws : List (ℕ × List α)) : Prop where
  fits : Fits L ws
  eq : ∀ l : List α, l.length = L → f l = .ok (writes ws l)

namespace WritesAs

variable {L : ℕ}

theorem writeAt {d : ℕ} {vs : List α} (h : d + vs.length ≤ L) :
    WritesAs L (fun l => (writeAt l d vs : Outcome ε (List α))) [(d, vs)] where
  fits := by
    intro w hw
    cases List.mem_singleton.1 hw
    exact h
  eq := by
    intro l hl
    rw [Lib.writeAt, if_pos (hl ▸ h)]
    rfl

theorem memcpy {src : List α} {s n d : ℕ} (hs : s + n ≤ src.length) (hd : d + n ≤ L) :
    WritesAs L (fun l => (memcpy src s n d l : Outcome ε (List α))) [(d, (src.drop s).take n)] := by
  have hlen : ((src.drop s).take n).length = n := by
    simp only [List.length_take, List.length_drop]
    omega
  have hwrite : WritesAs L (fun l => (Lib.writeAt l d ((src.drop s).take n) : Outcome ε (List α))) _ :=
    WritesAs.writeAt (by omega)
  refine ⟨hwrite.fits, fun l hl => ?_⟩
  rw [Lib.memcpy, readAt, if_pos hs, ok_bind]
  exact hwrite.eq l hl

/-- **The rule for a loop.** -/
theorem forTo {n : ℕ} {body : ℕ → List α → Outcome ε (List α)} {ws : ℕ → List (ℕ × List α)}
    (h : ∀ i < n, WritesAs L (body i) (ws i)) : WritesAs L (forTo n body) ((List.range n).flatMap ws) := by
  have hfits : Fits L ((List.range n).flatMap ws) := by
    intro w hw
    obtain ⟨i, hi, hw⟩ := List.mem_flatMap.1 hw
    exact (h i (List.mem_range.1 hi)).fits w hw
  refine ⟨hfits, fun l hl => ?_⟩
  rw [Lib.forTo]
  induction n with
  | zero => rfl
  | succ n ih =>
    have hrest : Fits L ((List.range n).flatMap ws) := by
      intro w hw
      obtain ⟨i, hi, hw⟩ := List.mem_flatMap.1 hw
      exact (h i (Nat.lt_succ_of_lt (List.mem_range.1 hi))).fits w hw
    have hlen : (writes ((List.range n).flatMap ws) l).length = L := (length_writes (hl.symm ▸ hrest)).trans hl
    have hlast := (h n (Nat.lt_succ_self n)).eq _ hlen
    rw [List.range_succ, List.foldlM_append, ih (fun i hi => h i (Nat.lt_succ_of_lt hi)) hrest, ok_bind,
      List.foldlM_cons, hlast, ok_bind, List.foldlM_nil, List.flatMap_append, List.flatMap_singleton, writes, writes, writes,
      List.foldl_append]
    rfl

end WritesAs

/-! ## Blocks -/

/-- `n` elements that are copied from `s` on to `d` on. -/
structure Block where
  s : ℕ
  d : ℕ
  n : ℕ
  deriving DecidableEq, Repr

def Block.flip (b : Block) : Block := ⟨b.d, b.s, b.n⟩

def Block.write (src : List α) (b : Block) : ℕ × List α := (b.d, (src.drop b.s).take b.n)

/-- The blocks are copied one after the other. -/
def copyBlocks (bs : List Block) (src dst : List α) : List α := writes (bs.map (Block.write src)) dst

/-- The place `y` of the source is copied to the place `x`. -/
def Moves (bs : List Block) (y x : ℕ) : Prop := ∃ b ∈ bs, ∃ k < b.n, y = b.s + k ∧ x = b.d + k

theorem moves_flip {bs : List Block} {y x : ℕ} : Moves (bs.map Block.flip) y x ↔ Moves bs x y := by
  constructor
  · rintro ⟨b', hb', k, hk, hy, hx⟩
    obtain ⟨b, hb, rfl⟩ := List.mem_map.1 hb'
    exact ⟨b, hb, k, hk, hx, hy⟩
  · rintro ⟨b, hb, k, hk, hx, hy⟩
    exact ⟨b.flip, List.mem_map_of_mem hb, k, hk, hy, hx⟩

/-- The blocks are inside a source and a destination of these lengths. -/
def BlocksFit (S L : ℕ) (bs : List Block) : Prop := ∀ b ∈ bs, b.s + b.n ≤ S ∧ b.d + b.n ≤ L

section Blocks

variable {bs : List Block} {src dst : List α} {x y : ℕ}

theorem Block.length_write {b : Block} (h : b.s + b.n ≤ src.length) : (b.write src).2.length = b.n := by
  simp only [Block.write, List.length_take, List.length_drop]
  omega

theorem Block.getElem?_write {b : Block} {k : ℕ} (h : k < b.n) : (b.write src).2[k]? = src[b.s + k]? := by
  rw [Block.write, List.getElem?_take_of_lt h, List.getElem?_drop]

theorem BlocksFit.fits (h : BlocksFit src.length dst.length bs) : Fits dst.length (bs.map (Block.write src)) := by
  intro w hw
  obtain ⟨b, hb, rfl⟩ := List.mem_map.1 hw
  rw [Block.length_write (h b hb).1]
  exact (h b hb).2

theorem length_copyBlocks (h : BlocksFit src.length dst.length bs) : (copyBlocks bs src dst).length = dst.length :=
  length_writes h.fits

/-- **What has been copied to a place**, if nothing else is copied there. -/
theorem getElem?_copyBlocks (h : BlocksFit src.length dst.length bs)
    (hfun : ∀ y y' x, Moves bs y x → Moves bs y' x → y = y') (hm : Moves bs y x) :
    (copyBlocks bs src dst)[x]? = src[y]? := by
  obtain ⟨b, hb, k, hk, rfl, rfl⟩ := hm
  have hlen := Block.length_write (h b hb).1
  have hwritten := getElem?_writes_of_mem (w := b.write src) (k := k) h.fits (List.mem_map_of_mem hb) (by omega) ?_
  · exact hwritten.trans (Block.getElem?_write hk)
  · intro v hv j hj heq
    obtain ⟨b', hb', rfl⟩ := List.mem_map.1 hv
    rw [Block.length_write (h b' hb').1] at hj
    rw [Block.getElem?_write hj, Block.getElem?_write hk,
      hfun (b'.s + j) (b.s + k) (b.d + k) ⟨b', hb', j, hj, rfl, heq.symm⟩ ⟨b, hb, k, hk, rfl, rfl⟩]

theorem getElem?_copyBlocks_of_forall (h : BlocksFit src.length dst.length bs) (hm : ∀ y, ¬ Moves bs y x) :
    (copyBlocks bs src dst)[x]? = dst[x]? := by
  refine getElem?_writes_of_forall h.fits fun w hw hcovers => ?_
  obtain ⟨b, hb, rfl⟩ := List.mem_map.1 hw
  obtain ⟨k, hk⟩ := Nat.exists_eq_add_of_le hcovers.1
  have hlt := hcovers.2
  rw [Block.length_write (h b hb).1, hk] at hlt
  exact hm (b.s + k) ⟨b, hb, k, Nat.lt_of_add_lt_add_left hlt, rfl, hk⟩

end Blocks

/-! ## Mixed radix -/

theorem digits_inj {a a' b b' n : ℕ} (hb : b < n) (hb' : b' < n) (h : a * n + b = a' * n + b') : a = a' ∧ b = b' := by
  have hn : 0 < n := Nat.zero_lt_of_lt hb
  have hdiv := congrArg (· / n) h
  have hmod := congrArg (· % n) h
  simp only [Nat.mul_comm _ n, Nat.mul_add_div hn, Nat.div_eq_of_lt hb, Nat.div_eq_of_lt hb', Nat.mul_add_mod,
    Nat.mod_eq_of_lt hb, Nat.mod_eq_of_lt hb', Nat.add_zero] at hdiv hmod
  exact ⟨hdiv, hmod⟩

theorem exists_digits {x a n : ℕ} (h : x < a * n) : ∃ q < a, ∃ r < n, x = q * n + r := by
  have hn : 0 < n := Nat.pos_of_ne_zero (by rintro rfl; exact absurd h (Nat.not_lt_zero _))
  refine ⟨x / n, (Nat.div_lt_iff_lt_mul hn).2 h, x % n, Nat.mod_lt x hn, ?_⟩
  rw [Nat.mul_comm]
  exact (Nat.div_add_mod x n).symm

theorem digits_lt {a a' b n : ℕ} (ha : a < a') (hb : b < n) : a * n + b < a' * n := by
  calc a * n + b < a * n + n := Nat.add_lt_add_left hb _
    _ = (a + 1) * n := (Nat.succ_mul a n).symm
    _ ≤ a' * n := Nat.mul_le_mul_right n ha

end Nessus.Lib
