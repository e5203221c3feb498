import Nessus.Parser.NchwRepack

/-!
# Conversion of `NV21` frames

The case `IMAGE_NV21` of `convert_to_bgr`: its loop over the frames, and what `NV21ToRGB24` reads and writes of a frame.

* `Batch.Rounds.inv`, `not_batchConverted` — the loop converts the first frame in every round, and no round is its last;
* `nv21Bounds_iff` — which shapes keep the conversion of each frame within the frame;
* `nv21Frame_local` — where they do, the conversion is defined and changes nothing but its frame.
-/

namespace Nessus.Parser

open Nessus.Lib Nessus.Abi Outcome

/-! ## The loop -/

/-- The variables of the loop, and the frames that were converted so far. -/
structure Batch where
  i : ℤ
  n : ℤ
  dst : List Byte
  converted : List ℤ

namespace Batch

/-- One round of `for (int i = 0; i < n; n++)`. -/
def round (frame : ℤ → List Byte → Outcome Exn (List Byte)) (s : Batch) : Outcome Exn Batch :=
  frame s.i s.dst >>= fun dst =>
  checked (s.n + 1) >>= fun n =>
  .ok ⟨s.i, n, dst, s.converted ++ [s.i]⟩

/-- Some rounds lead from the first state to the second. -/
inductive Rounds (frame : ℤ → List Byte → Outcome Exn (List Byte)) (s : Batch) : Batch → Prop where
  | refl : Rounds frame s s
  | next {s₁ s₂ : Batch} : Rounds frame s s₁ → s₁.i < s₁.n → round frame s₁ = .ok s₂ → Rounds frame s s₂

def Ends (frame : ℤ → List Byte → Outcome Exn (List Byte)) (s s' : Batch) : Prop := Rounds frame s s' ∧ ¬ s'.i < s'.n

variable {frame : ℤ → List Byte → Outcome Exn (List Byte)} {s s' : Batch}

theorem round_inv (h : round frame s = .ok s') :
    s'.i = s.i ∧ s'.n = s.n + 1 ∧ InInt s'.n ∧ s'.converted = s.converted ++ [s.i] := by
  obtain ⟨dst, -, h⟩ := bind_eq_ok.1 h
  obtain ⟨n, hn, h⟩ := bind_eq_ok.1 h
  cases h
  obtain ⟨hin, rfl⟩ := (checked_definedIff (s.n + 1)).of_eq_ok hn
  exact ⟨rfl, rfl, hin, rfl⟩

/-- After `k` rounds frame `i` has been converted `k` times more, and there are `k` more frames to convert. -/
theorem Rounds.inv (h : Rounds frame s s') :
    ∃ k : ℕ, s'.i = s.i ∧ s'.n = s.n + k ∧ s'.converted = s.converted ++ List.replicate k s.i := by
  induction h with
  | refl => exact ⟨0, rfl, by simp, by simp⟩
  | next _ _ hround ih =>
    obtain ⟨k, hi, hn, hconv⟩ := ih
    obtain ⟨hi', hn', -, hconv'⟩ := round_inv hround
    refine ⟨k + 1, hi'.trans hi, ?_, ?_⟩
    · rw [hn', hn]
      push_cast
      ring
    · rw [hconv', hconv, hi, List.append_assoc, List.replicate_succ']

/-- No state that can be reached is one where the loop ends. -/
theorem not_ends (h : s.i < s.n) : ¬ Ends frame s s' := by
  rintro ⟨hrounds, hend⟩
  obtain ⟨k, hi, hn, -⟩ := hrounds.inv
  omega

/-- The loop of the conversion takes one of these rounds, and goes on from there. -/
theorem growingLoop_round (hn : InInt s.n) :
    growingLoop (frame s.i) (maxInt - s.n).toNat s.dst =
      round frame s >>= fun s' => growingLoop (frame s'.i) (maxInt - s'.n).toNat s'.dst := by
  obtain ⟨hmin, hmax⟩ := hn
  obtain ⟨k, hk⟩ : ∃ k, k = (maxInt - s.n).toNat := ⟨_, rfl⟩
  unfold round
  rw [← hk]
  cases k with
  | zero =>
    have hout : ¬ InInt (s.n + 1) := fun h => by
      have := h.2
      omega
    rw [growingLoop, bind_assoc]
    congr 1
    funext dst
    rw [checked, if_neg hout, undefined_bind, undefined_bind]
  | succ k =>
    have hin : InInt (s.n + 1) := ⟨by omega, by omega⟩
    have hk' : (maxInt - (s.n + 1)).toNat = k := by omega
    rw [growingLoop, bind_assoc]
    congr 1
    funext dst
    rw [checked, if_pos hin, ok_bind, ok_bind, hk']

/-- The loop of the conversion passes through every state that the rounds reach. -/
theorem Rounds.growingLoop_eq (h : Rounds frame s s') (hn : InInt s.n) :
    InInt s'.n ∧ growingLoop (frame s.i) (maxInt - s.n).toNat s.dst =
      growingLoop (frame s'.i) (maxInt - s'.n).toNat s'.dst := by
  induction h with
  | refl => exact ⟨hn, rfl⟩
  | next _ _ hround ih =>
    obtain ⟨-, -, hin, -⟩ := round_inv hround
    refine ⟨hin, ?_⟩
    rw [ih.2, growingLoop_round ih.1, hround, ok_bind]

end Batch

/-- The guard of the case lets the buffer pass, and its products can be computed. -/
structure Nv21Passes (size : ℕ) (n c h w : ℤ) : Prop where
  h_pos : 0 < h
  w_pos : 0 < w
  even : h % 2 = 0
  shape : ProdIn h [w, c]
  frames : InInt (n * (h * w * c / 2))
  size_eq : size = toSize (n * (h * w * c / 2))

theorem Nv21Passes.convertNv21_eq (v : Vendored) {src : DataHandler} {n c h w : ℤ} (hp : Nv21Passes src.size n c h w) :
    convertNv21 v src n c h w =
      prod n [h * w * c] >>= fun total =>
      newBytes total >>= fun dst =>
      (if 0 < n then growingLoop (nv21Frame v src c h w (h * w * c) 0) (maxInt - n).toNat dst
        else .ok dst) >>= fun dst =>
      prod (h * w * c) [n] >>= fun total =>
      .ok (.heap dst total .imageBgrNhwc) := by
  have hshape : (prod h [w, c] : Outcome Exn ℤ) = .ok (h * w * c) := prod_eq hp.shape
  have hframes : (prod n [h * w * c / 2] : Outcome Exn ℤ) = .ok (n * (h * w * c / 2)) :=
    prod_eq ⟨hp.frames, trivial⟩
  unfold convertNv21
  rw [hshape, ok_bind]
  dsimp only
  rw [if_neg (not_not.2 hp.even), hframes, ok_bind, if_neg (not_not.2 hp.size_eq)]

/-- The bound of the loop leaves the range of `int` in the end. -/
theorem Nv21Passes.convertToBgr_undefined (v : Vendored) {src : DataHandler} {n c h w : ℤ}
    (hformat : src.format = .imageNv21) (hn : 1 ≤ n) (hc : 0 ≤ c) (hp : Nv21Passes src.size n c h w) :
    convertToBgr v src n c h w = .undefined := by
  have hsize : 0 ≤ n * (h * w * c) :=
    mul_nonneg (by omega) (mul_nonneg (mul_nonneg hp.h_pos.le hp.w_pos.le) hc)
  have hconv : convertToBgr v src n c h w = convertNv21 v src n c h w := by rw [convertToBgr, hformat]
  rw [hconv, hp.convertNv21_eq]
  by_cases hin : InInt (n * (h * w * c))
  · have htotal : (prod n [h * w * c] : Outcome Exn ℤ) = .ok (n * (h * w * c)) := prod_eq ⟨hin, trivial⟩
    rw [htotal, ok_bind, newBytes, if_neg hsize.not_gt, ok_bind, if_pos (by omega),
      growingLoop_undefined (nv21Frame_noThrow v _ hp.w_pos hp.h_pos), undefined_bind]
  · rw [(prod_definedIff n [h * w * c]).undefined fun h => hin h.1, undefined_bind]

/-- The frames `0`, .., `n - 1` are converted once each, and the result is an interleaved frame of the size of the
shape. -/
def BatchConverted (v : Vendored) (src : DataHandler) (n c h w : ℤ) : Prop :=
  ∃ buffer s dst, newBytes (n * (h * w * c)) = .ok buffer ∧
    Batch.Ends (nv21Frame v src c h w (h * w * c)) ⟨0, n, buffer, []⟩ s ∧
    s.converted = (List.range n.toNat).map ((↑) : ℕ → ℤ) ∧
    convertToBgr v src n c h w = .ok dst ∧ dst.data = some s.dst ∧ dst.format = .imageBgrNhwc ∧
    (dst.size : ℤ) = n * h * w * c

/-- **No batch is ever converted**: the loop increments its bound, and not its counter. -/
theorem not_batchConverted (v : Vendored) (src : DataHandler) (n c h w : ℤ) (hn : 1 ≤ n) :
    ¬ BatchConverted v src n c h w := by
  rintro ⟨buffer, s, dst, -, hends, -⟩
  exact Batch.not_ends (s := ⟨0, n, buffer, []⟩) (show (0 : ℤ) < n by omega) hends

/-- An `NV21` frame with the given bytes. -/
def nv21Source (bytes : List Byte) (h : bytes.length < 2 ^ 64) : DataHandler :=
  { data := some bytes, size := bytes.length, size_lt := h, format := .imageNv21, isHeapAllocated := false }

def nv21Square : DataHandler := nv21Source (List.replicate 6 (some 16)) (by decide)

theorem nv21Square_passes : Nv21Passes nv21Square.size 1 3 2 2 :=
  ⟨by decide, by decide, by decide, by decide, by decide, by decide⟩

theorem not_batchConverted_square : ¬ BatchConverted .zeros nv21Square 1 3 2 2 :=
  not_batchConverted .zeros nv21Square 1 3 2 2 (by decide)

theorem not_forall_batchConverted : ¬ ∀ (v : Vendored) (src : DataHandler) (n c h w : ℤ), src.format = .imageNv21 →
    1 ≤ n → Nv21Passes src.size n c h w → BatchConverted v src n c h w := by
  intro hall
  obtain ⟨buffer, s, dst, -, hends, -⟩ := hall .zeros nv21Square 1 3 2 2 rfl (by decide) nv21Square_passes
  exact Batch.not_ends (s := ⟨0, 1, buffer, []⟩) (show (0 : ℤ) < 1 by decide) hends

/-! ## The frames -/

/-- `len` bytes from `first` on are among the `size` bytes from `start` on. -/
def Within (first len start size : ℤ) : Prop := start ≤ first ∧ first + len ≤ start + size

/-- `(w + 1) & ~1`. -/
def alignedWidth (w : ℤ) : ℤ := (w + 1) / 2 * 2

/-- What the conversion of frame `i` reads is within frame `i` of the source, and what it writes within frame `i` of
the destination. -/
structure Nv21InFrame (c h w i : ℤ) : Prop where
  y : ∀ k, 0 ≤ k → k < h → Within (i * (h * w * c / 2) + k * w) w (i * (h * w * c / 2)) (h * w * c / 2)
  vu : ∀ k, 0 ≤ k → k < h / 2 →
    Within (i * (h * w * c / 2) + alignedWidth w * h + k * alignedWidth w) (alignedWidth w) (i * (h * w * c / 2))
      (h * w * c / 2)
  rgb : ∀ k, 0 ≤ k → k < h → Within (i * (h * w * c) + k * (w * c)) (3 * w) (i * (h * w * c)) (h * w * c)

/-- The products of the guard can be computed. -/
def Nv21GuardIn (n c h w : ℤ) : Prop := ProdIn h [w, c] ∧ InInt (n * (h * w * c / 2))

/-- The sizes can be computed, that of the destination where there are frames, and the conversion of every frame keeps
to its frame. -/
def Nv21Bounds (n c h w : ℤ) : Prop :=
  Nv21GuardIn n c h w ∧ ∀ i, 0 ≤ i → i < n → InInt (n * (h * w * c)) ∧ Nv21InFrame c h w i

section Bounds

variable {size : ℕ} {n c h w i : ℤ}

theorem alignedWidth_ge (w : ℤ) : w ≤ alignedWidth w := by
  unfold alignedWidth
  omega

theorem half_frame {m : ℤ} (hm : h = 2 * m) : h * w * c / 2 = m * (w * c) := by
  rw [hm, show 2 * m * w * c = 2 * (m * (w * c)) by ring, Int.mul_ediv_cancel_left _ (by decide)]

/-- Rows that have room for three bytes a pixel, of an even number of pixels, keep everything in the frame. -/
theorem nv21InFrame_of_le (hh : 0 < h) (hw : 0 < w) (heven : h % 2 = 0) (hwide : 3 * alignedWidth w ≤ w * c) :
    Nv21InFrame c h w i := by
  obtain ⟨m, hm⟩ : ∃ m, h = 2 * m := ⟨h / 2, by omega⟩
  have hA := alignedWidth_ge w
  have hframe : m * (3 * alignedWidth w) ≤ m * (w * c) := mul_le_mul_of_nonneg_left hwide (by omega)
  refine ⟨fun k hk₀ hk => ?_, fun k hk₀ hk => ?_, fun k hk₀ hk => ?_⟩
  · rw [half_frame hm]
    have h₁ : 0 ≤ k * w := mul_nonneg hk₀ hw.le
    have h₂ : (k + 1) * w ≤ 2 * m * w := mul_le_mul_of_nonneg_right (by omega) hw.le
    have h₃ : m * (2 * w) ≤ m * (3 * alignedWidth w) := mul_le_mul_of_nonneg_left (by omega) (by omega)
    have h₄ : 2 * m * w = m * (2 * w) := by ring
    rw [add_mul, one_mul] at h₂
    exact ⟨by omega, by omega⟩
  · rw [half_frame hm, hm]
    have hA₀ : 0 ≤ alignedWidth w := hw.le.trans hA
    have h₁ : 0 ≤ alignedWidth w * (2 * m) := mul_nonneg hA₀ (by omega)
    have h₂ : 0 ≤ k * alignedWidth w := mul_nonneg hk₀ hA₀
    have h₃ : (k + 1) * alignedWidth w ≤ m * alignedWidth w := mul_le_mul_of_nonneg_right (by omega) hA₀
    have h₄ : alignedWidth w * (2 * m) + m * alignedWidth w = m * (3 * alignedWidth w) := by ring
    rw [add_mul, one_mul] at h₃
    exact ⟨by omega, by omega⟩
  · have h₁ : 0 ≤ k * (w * c) := mul_nonneg hk₀ (by omega)
    have h₂ : (k + 1) * (w * c) ≤ h * (w * c) := mul_le_mul_of_nonneg_right (by omega) (by omega)
    rw [add_mul, one_mul] at h₂
    rw [mul_assoc h w c]
    exact ⟨by omega, by omega⟩

/-- The last row of chroma shows whether the rows are wide enough. -/
theorem le_of_nv21InFrame (hh : 0 < h) (heven : h % 2 = 0) (hin : Nv21InFrame c h w i) :
    3 * alignedWidth w ≤ w * c := by
  obtain ⟨m, hm⟩ : ∃ m, h = 2 * m := ⟨h / 2, by omega⟩
  obtain ⟨-, hend⟩ := hin.vu (m - 1) (by omega) (by omega)
  rw [half_frame hm, hm] at hend
  have hlast : alignedWidth w * (2 * m) + (m - 1) * alignedWidth w + alignedWidth w = m * (3 * alignedWidth w) := by
    ring
  have hle : m * (3 * alignedWidth w) ≤ m * (w * c) := by omega
  exact le_of_mul_le_mul_left hle (by omega)

end Bounds

/-- `decode_and_convert` and the guard of the case do not reject the buffer; a guard that overflows rejects nothing. -/
structure Nv21Admitted (size : ℕ) (n c h w : ℤ) : Prop where
  h_pos : 0 < h
  w_pos : 0 < w
  size_pos : 0 < size
  even : h % 2 = 0
  size_eq : Nv21GuardIn n c h w → size = toSize (n * (h * w * c / 2))

/-- **The bytes of a frame are enough for its conversion exactly if** a row has three bytes for each pixel, with the
number of pixels rounded up to an even one, and nothing overflows. -/
theorem nv21Bounds_iff (size : ℕ) (n c h w : ℤ) (ha : Nv21Admitted size n c h w) :
    Nv21Bounds n c h w ↔
      Nv21GuardIn n c h w ∧ (n ≤ 0 ∨ 3 * alignedWidth w ≤ w * c ∧ InInt (n * (h * w * c))) := by
  refine and_congr_right fun _ => ?_
  constructor
  · intro hall
    by_cases hn : n ≤ 0
    · exact .inl hn
    · obtain ⟨hin, hframe⟩ := hall 0 le_rfl (by omega)
      exact .inr ⟨le_of_nv21InFrame ha.h_pos ha.even hframe, hin⟩
  · rintro (hn | ⟨hwide, hin⟩) i hi₀ hi
    · omega
    · exact ⟨hin, nv21InFrame_of_le ha.h_pos ha.w_pos ha.even hwide⟩

/-- Two rows of two pixels of three bytes. -/
theorem nv21Bounds_square : Nv21Bounds 1 3 2 2 :=
  (nv21Bounds_iff 6 1 3 2 2 ⟨by decide, by decide, by decide, by decide, fun _ => by decide⟩).2
    ⟨⟨by decide, by decide⟩, .inr ⟨by decide, by decide⟩⟩

/-- Two rows of a single pixel: the row of chroma ends three bytes behind the frame of three bytes. -/
theorem not_forall_nv21Bounds : ¬ ∀ (size : ℕ) (n c h w : ℤ), Nv21Admitted size n c h w → Nv21Bounds n c h w := by
  intro hall
  obtain ⟨-, hframes⟩ := hall 3 1 3 2 1 ⟨by decide, by decide, by decide, by decide, fun _ => by decide⟩
  obtain ⟨-, hframe⟩ := hframes 0 le_rfl (by decide)
  obtain ⟨-, hend⟩ := hframe.vu 0 le_rfl (by decide)
  exact absurd hend (by decide)

/-! ### What the conversion changes -/

/-- `dst'` differs from `dst` in frame `i` only. -/
def SameOutside (size i : ℤ) (dst dst' : List Byte) : Prop :=
  dst'.length = dst.length ∧ ∀ p : ℕ, (p : ℤ) < i * size ∨ i * size + size ≤ p → dst'[p]? = dst[p]?

theorem readBytes_ok {src : List Byte} {first len : ℤ} (h₁ : 0 ≤ first) (h₂ : 0 ≤ len) (h₃ : first + len ≤ src.length) :
    ∃ row, readBytes src first len = .ok row := ⟨_, if_pos ⟨h₁, h₂, h₃⟩⟩

section Local

variable {n c h w i : ℤ} {bytes dst : List Byte}

/-- A row of the conversion that is within its frame is defined, and changes its frame only. -/
theorem nv21Row_local (v : Vendored) (hw : 0 < w) (heven : h % 2 = 0) (hframe : Nv21InFrame c h w i) (hi₀ : 0 ≤ i)
    (hi : i < n) (hsize : 0 ≤ h * w * c) (hbytes : bytes.length = n * (h * w * c / 2))
    (hdst : dst.length = n * (h * w * c)) {k : ℤ} (hk₀ : 0 ≤ k) (hk : k < h) {dst' : List Byte}
    (hsame : SameOutside (h * w * c) i dst dst') :
    ∃ dst'', nv21Row v (bytes.drop (i * (h * w * c / 2)).toNat) w
        (bytes.drop (i * (h * w * c / 2) + alignedWidth w * h).toNat) (alignedWidth w) (i * (h * w * c)) (w * c) w k
        dst' = .ok dst'' ∧ SameOutside (h * w * c) i dst dst'' := by
  obtain ⟨hlen, hold⟩ := hsame
  obtain ⟨F, hF⟩ : ∃ F, F = h * w * c / 2 := ⟨_, rfl⟩
  obtain ⟨S, hS⟩ : ∃ S, S = h * w * c := ⟨_, rfl⟩
  have hA := alignedWidth_ge w
  obtain ⟨-, hy⟩ := hframe.y k hk₀ hk
  obtain ⟨-, hvu⟩ := hframe.vu (k / 2) (by omega) (by omega)
  obtain ⟨hrgb₀, hrgb⟩ := hframe.rgb k hk₀ hk
  rw [← hF] at hy hvu hbytes
  rw [← hS] at hrgb₀ hrgb hdst hsize hold
  rw [← hF, ← hS]
  have hF₀ : 0 ≤ F := by omega
  have hiF : 0 ≤ i * F := mul_nonneg hi₀ hF₀
  have hiS : 0 ≤ i * S := mul_nonneg hi₀ hsize
  have hnF : i * F + F ≤ n * F := by
    have := mul_le_mul_of_nonneg_right (show i + 1 ≤ n by omega) hF₀
    rwa [add_mul, one_mul] at this
  have hnS : i * S + S ≤ n * S := by
    have := mul_le_mul_of_nonneg_right (show i + 1 ≤ n by omega) hsize
    rwa [add_mul, one_mul] at this
  have hkw : 0 ≤ k * w := mul_nonneg hk₀ hw.le
  have hkA : 0 ≤ k / 2 * alignedWidth w := mul_nonneg (by omega) (by omega)
  have hAh : 0 ≤ alignedWidth w * h := mul_nonneg (by omega) (by omega)
  have hlenY : k * w + w ≤ (bytes.drop (i * F).toNat).length := by
    rw [List.length_drop]
    omega
  have hlenVu : k / 2 * alignedWidth w + alignedWidth w ≤ (bytes.drop (i * F + alignedWidth w * h).toNat).length := by
    rw [List.length_drop]
    omega
  obtain ⟨ys, hys⟩ := readBytes_ok hkw hw.le hlenY
  obtain ⟨vus, hvus⟩ := readBytes_ok hkA (by omega) hlenVu
  have hcopy : CopyIn ((List.range (3 * w).toNat).map (v.nv21ToRgb24Row ys vus)).length 0 (3 * w) dst'.length
      (i * S + k * (w * c)) := by
    rw [List.length_map, List.length_range]
    exact ⟨le_rfl, by omega, by omega, by omega, by omega⟩
  obtain ⟨dst'', hrun, hlen', -, hout⟩ := copy_get hcopy
  refine ⟨dst'', ?_, hlen'.trans hlen, fun p hp => ?_⟩
  · unfold nv21Row
    rw [hys, ok_bind]
    exact (congrArg (· >>= _) hvus).trans hrun
  · exact (hout p (by omega)).trans (hold p hp)

/-- **Within its bounds the conversion of a frame is defined**, and changes nothing but its frame of the destination. -/
theorem nv21Frame_local (v : Vendored) {src : DataHandler} (hdata : src.data = some bytes)
    (hbytes : bytes.length = n * (h * w * c / 2)) (hp : Nv21Passes src.size n c h w) (hb : Nv21Bounds n c h w)
    (hi₀ : 0 ≤ i) (hi : i < n) (hdst : dst.length = n * (h * w * c)) :
    ∃ dst', nv21Frame v src c h w (h * w * c) i dst = .ok dst' ∧ SameOutside (h * w * c) i dst dst' := by
  have hh := hp.h_pos
  have hw := hp.w_pos
  have heven := hp.even
  obtain ⟨hin, hframe⟩ := hb.2 i hi₀ hi
  have hwide := le_of_nv21InFrame hh heven hframe
  have hA := alignedWidth_ge w
  have hwc : 0 < w * c := by omega
  have hhwc : h * w * c = h * (w * c) := mul_assoc h w c
  have hsize : 0 < h * w * c := hhwc ▸ mul_pos hh hwc
  have hshape : InInt (h * w * c) := hp.shape.2.1
  have hwc_le : w * c ≤ h * w * c := hhwc ▸ le_mul_of_one_le_left hwc.le hh
  have hwcin : InInt (w * c) := inInt_of_nonneg hwc.le hwc_le hshape
  have hAh : 0 ≤ alignedWidth w * h := mul_nonneg (by omega) hh.le
  have hAh_le : alignedWidth w * h ≤ h * w * c := by
    rw [hhwc, mul_comm]
    exact mul_le_mul_of_nonneg_left (by omega) hh.le
  have hw1 : InInt (w + 1) := inInt_of_nonneg (by omega) (by omega) hwcin
  have hframes {x : ℤ} (hx : 0 ≤ x) (hnx : InInt (n * x)) : InInt (i * x) :=
    inInt_of_nonneg (mul_nonneg hi₀ hx) (mul_le_mul_of_nonneg_right hi.le hx) hnx
  have h₁ : (checked (w + 1) : Outcome Exn ℤ) = .ok (w + 1) := if_pos hw1
  have h₂ : (prod i [h * w * c / 2] : Outcome Exn ℤ) = .ok (i * (h * w * c / 2)) :=
    prod_eq ⟨hframes (by omega) hp.frames, trivial⟩
  have h₃ : (prod (alignedWidth w) [h] : Outcome Exn ℤ) = .ok (alignedWidth w * h) :=
    prod_eq ⟨inInt_of_nonneg hAh hAh_le hshape, trivial⟩
  have h₄ : (prod i [h * w * c] : Outcome Exn ℤ) = .ok (i * (h * w * c)) := prod_eq ⟨hframes hsize.le hin, trivial⟩
  have h₅ : (prod w [c] : Outcome Exn ℤ) = .ok (w * c) := prod_eq ⟨hwcin, trivial⟩
  obtain ⟨-, hvu⟩ := hframe.vu 0 le_rfl (by omega)
  have hiF : 0 ≤ i * (h * w * c / 2) := mul_nonneg hi₀ (by omega)
  have hnF : i * (h * w * c / 2) + h * w * c / 2 ≤ n * (h * w * c / 2) := by
    have := mul_le_mul_of_nonneg_right (show i + 1 ≤ n by omega) (show 0 ≤ h * w * c / 2 by omega)
    rwa [add_mul, one_mul] at this
  have h₆ : offset src.data (i * (h * w * c / 2)) = .ok (some (bytes.drop (i * (h * w * c / 2)).toNat)) := by
    rw [hdata]
    exact if_pos ⟨hiF, by omega⟩
  have h₇ : offset src.data (i * (h * w * c / 2) + alignedWidth w * h) =
      .ok (some (bytes.drop (i * (h * w * c / 2) + alignedWidth w * h).toNat)) := by
    rw [hdata]
    exact if_pos ⟨by omega, by omega⟩
  have hnot : ¬ (w ≤ 0 ∨ h = 0) := by omega
  obtain ⟨dst', hrun, hsame⟩ := forRange_ok (I := fun _ => SameOutside (h * w * c) i dst) hh.le
    (fun k s hk₀ hk hs => nv21Row_local v hw heven hframe hi₀ hi hsize.le hbytes hdst hk₀ hk hs) ⟨rfl, fun _ _ => rfl⟩
  refine ⟨dst', ?_, hsame⟩
  unfold nv21Frame
  rw [h₁, ok_bind]
  dsimp only
  rw [h₂, ok_bind, h₆, ok_bind, show (w + 1) / 2 * 2 = alignedWidth w from rfl, h₃, ok_bind, h₇, ok_bind, h₄, ok_bind,
    h₅, ok_bind]
  simp only [nv21ToRgb24, hnot, if_false, if_neg hh.le.not_gt, abs_of_pos hh, hrun, ok_bind]
  rfl

end Local

end Nessus.Parser
