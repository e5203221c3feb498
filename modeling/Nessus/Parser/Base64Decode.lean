import Nessus.Parser.Base64X

/-!
# What the base64 decoder does

The loops decode group after group; what a word writes beyond its three bytes is overwritten by the next.

* `decoded`, `lastGroup` — what the groups are decoded to;
* `Decoded` — the buffer after some groups, which `di32_definedIff` and `decode4_definedIff` carry on;
* `forLoop_definedIff` — the rule for the loops;
* `tb64xdec_definedIff` — **what is left in the buffer**, and when it is large enough;
* `tb64xdec_encode` — an encoding is decoded to its bytes, and the rest of the buffer is as it was.
-/

namespace Nessus.Parser.Base64X

open Nessus.Lib Nessus.Abi Outcome

/-! ## Groups -/

def word (a b c d : UInt8) : ℕ := a.toNat + 2 ^ 8 * b.toNat + 2 ^ 16 * c.toNat + 2 ^ 24 * d.toNat

def groupWord (text : List UInt8) (k : ℕ) : ℕ :=
  word (text.getD (4 * k) 0) (text.getD (4 * k + 1) 0) (text.getD (4 * k + 2) 0) (text.getD (4 * k + 3) 0)

def decoded (text : List UInt8) (k : ℕ) : List UInt8 :=
  (List.range k).flatMap fun j => (wordBytes (du32 (groupWord text j))).take 3

def lastBytesOf (a b c d : UInt8) : List UInt8 :=
  if d = 61 then
    if c = 61 then
      if b = 61 then (wordBytes (lut tb64lutxd0 a)).take 1
      else (wordBytes (lut tb64lutxd0 a ||| lut tb64lutxd1 b)).take 1
    else (wordBytes (lut tb64lutxd0 a ||| lut tb64lutxd1 b ||| lut tb64lutxd2 c)).take 2
  else (wordBytes (du32 (word a b c d))).take 3

def lastGroup (text : List UInt8) (k : ℕ) : List UInt8 :=
  lastBytesOf (text.getD (4 * k) 0) (text.getD (4 * k + 1) 0) (text.getD (4 * k + 2) 0) (text.getD (4 * k + 3) 0)

section Groups

variable {text : List UInt8} {k p : ℕ}

@[simp] theorem length_wordBytes (u : ℕ) : (wordBytes u).length = 4 := rfl

theorem decoded_succ (text : List UInt8) (k : ℕ) :
    decoded text (k + 1) = decoded text k ++ (wordBytes (du32 (groupWord text k))).take 3 := by
  rw [decoded, List.range_succ, List.flatMap_append, List.flatMap_singleton, decoded]

theorem length_lastGroup (text : List UInt8) (k : ℕ) : 1 ≤ (lastGroup text k).length ∧ (lastGroup text k).length ≤ 3 := by
  unfold lastGroup lastBytesOf
  split
  · split
    · split <;> simp
    · simp
  · simp

theorem readByte_text (hp : p < text.length) : readByte (some (text.map some)) p = .ok (text.getD p 0) := by
  simp [readByte, hp]

theorem ctou32_text (hk : 4 * k + 4 ≤ text.length) : ctou32 (some (text.map some)) (4 * k) = .ok (groupWord text k) := by
  rw [ctou32, readByte_text (by omega), readByte_text (by omega), readByte_text (by omega), readByte_text (by omega)]
  rfl

end Groups

/-! ## The buffer -/

/-- The groups before `k` have been written, and each wrote one byte too many. -/
def GroupsFit (L k : ℕ) : Prop := k = 0 ∨ 3 * k + 1 ≤ L

theorem GroupsFit.mono {L k k' : ℕ} (h : GroupsFit L k') (hk : k ≤ k') : GroupsFit L k := by
  rcases h with rfl | h
  · exact .inl (Nat.le_zero.1 hk)
  · exact .inr (by omega)

/-- The buffer after the groups before `k`, where it was `out₀`. -/
structure Decoded (text : List UInt8) (out₀ : List Byte) (k : ℕ) (out : List Byte) : Prop where
  length : out.length = out₀.length
  fits : GroupsFit out₀.length k
  front : out.take (3 * k) = (decoded text k).map some
  back : out.drop (3 * k + 1) = out₀.drop (3 * k + 1)

/-- The same, with the next two words read. -/
structure Ready (text : List UInt8) (out₀ : List Byte) (k : ℕ) (s : Decoder) : Prop extends Decoded text out₀ k s.out where
  ux : s.ux = groupWord text k
  vx : s.vx = groupWord text (k + 1)

section Buffer

variable {text : List UInt8} {out₀ out : List Byte} {k : ℕ} {s : Decoder}

theorem decoded_zero (text : List UInt8) (out₀ : List Byte) : Decoded text out₀ 0 out₀ := ⟨rfl, .inl rfl, rfl, rfl⟩

theorem Decoded.stou32 (h : Decoded text out₀ k out) :
    DefinedIff (stou32 out (3 * k) (du32 (groupWord text k))) (GroupsFit out₀.length (k + 1))
      (Decoded text out₀ (k + 1)) := by
  have hlen := h.length
  have hwrite : DefinedIff (writeAt out (3 * k) ((wordBytes (du32 (groupWord text k))).map some) : Outcome Exn (List Byte))
      (3 * k + ((wordBytes (du32 (groupWord text k))).map some).length ≤ out.length) (Decoded text out₀ (k + 1)) := by
    refine .ite fun hfits => ?_
    have hbytes : ((wordBytes (du32 (groupWord text k))).map some).length = 4 := by simp
    have htake : (out.take (3 * k)).length = 3 * k := by
      rw [List.length_take]
      omega
    refine ⟨(length_splice hfits).trans hlen, .inr (by omega), ?_, ?_⟩
    · rw [splice, List.append_assoc, Nat.mul_succ, List.take_append, htake, List.take_of_length_le (by omega),
        Nat.add_sub_cancel_left, List.take_append_of_le_length (by omega), h.front, decoded_succ, List.map_append,
        List.map_take]
    · have hback := congrArg (List.drop 3) h.back
      rw [List.drop_drop, List.drop_drop] at hback
      rw [splice, List.drop_append, List.length_append, htake, hbytes, List.drop_of_length_le (by simp; omega),
        List.nil_append, Nat.mul_succ, List.drop_drop]
      simpa using hback
  refine hwrite.congr ⟨fun hfits => .inr ?_, fun hfits => ?_⟩
  · simp at hfits
    omega
  · rcases hfits with h0 | hfits
    · cases h0
    · simp
      omega

theorem Ready.words (h : Ready text out₀ k s) (hk : 4 * k + 16 ≤ text.length) {ip op i : ℕ} (hip : ip + 8 * i = 4 * k)
    (hop : op + 6 * i = 3 * k) (cu : ℕ) :
    DefinedIff
      (ctou32 (some (text.map some)) (ip + 8 + i * 8) >>= fun ux =>
        Base64X.stou32 s.out (op + i * 6) (du32 s.ux) >>= fun out =>
        ctou32 (some (text.map some)) (ip + 8 + i * 8 + 4) >>= fun vx =>
        Base64X.stou32 out (op + i * 6 + 3) (du32 s.vx) >>= fun out => (ok ⟨out, cu, ux, vx⟩ : Outcome Exn Decoder))
      (GroupsFit out₀.length (k + 2)) (Ready text out₀ (k + 2)) := by
  have hux : ip + 8 + i * 8 = 4 * (k + 2) := by omega
  have hvx : 4 * (k + 2) + 4 = 4 * (k + 3) := by omega
  have hfirst : op + i * 6 = 3 * k := by omega
  have hsecond : 3 * k + 3 = 3 * (k + 1) := by omega
  rw [hux, hvx, hfirst, hsecond, ctou32_text (by omega), ok_bind, ctou32_text (by omega), h.ux, h.vx]
  refine h.toDecoded.stou32.bind_of_imp (fun hfits => hfits.mono (Nat.le_succ _)) fun out _ hout => ?_
  exact hout.stou32.bind_ok fun out' _ hout' => ⟨hout', rfl, rfl⟩

theorem di32_definedIff (h : Ready text out₀ k s) (hk : 4 * k + 16 ≤ text.length) {ip op i : ℕ} (hip : ip + 8 * i = 4 * k)
    (hop : op + 6 * i = 3 * k) :
    DefinedIff (di32 (some (text.map some)) ip op i s) (GroupsFit out₀.length (k + 2)) (Ready text out₀ (k + 2)) :=
  h.words hk hip hop s.cu

theorem di32c_definedIff (h : Ready text out₀ k s) (hk : 4 * k + 16 ≤ text.length) {ip op i : ℕ} (hip : ip + 8 * i = 4 * k)
    (hop : op + 6 * i = 3 * k) :
    DefinedIff (di32c (some (text.map some)) ip op i s) (GroupsFit out₀.length (k + 2)) (Ready text out₀ (k + 2)) :=
  h.words hk hip hop (s.cu ||| du32 s.ux)

theorem di32_steps (h : Ready text out₀ k s) {ip op i : ℕ} (hip : ip + 8 * i = 4 * k) (hop : op + 6 * i = 3 * k) (n : ℕ)
    (hk : 4 * k + 8 * n + 8 ≤ text.length) :
    DefinedIff ((List.range' i n).foldlM (fun s i => di32 (some (text.map some)) ip op i s) s)
      (GroupsFit out₀.length (k + 2 * n)) (Ready text out₀ (k + 2 * n)) := by
  induction n generalizing i k s with
  | zero => exact .ok_of h.fits h
  | succ n ih =>
    have hnext : k + 2 * (n + 1) = k + 2 + 2 * n := by omega
    rw [hnext]
    refine (di32_definedIff h (by omega) hip hop).bind_of_imp (fun hfits => hfits.mono (by omega)) fun s' _ hs' => ?_
    exact ih hs' (by omega) (by omega) (by omega)

/-! ### The bodies of the loops -/

theorem decode128_definedIff (h : Ready text out₀ k s) (hk : 4 * k + 132 < text.length) (hfour : 4 ∣ text.length) :
    DefinedIff (decode128 (some (text.map some)) (4 * k) (3 * k) s) (GroupsFit out₀.length (k + 32))
      (Ready text out₀ (k + 32)) := by
  have hfirst := di32c_definedIff h (by omega) (show 4 * k + 8 * 0 = 4 * k by omega) (show 3 * k + 6 * 0 = 3 * k by omega)
  refine hfirst.bind_of_imp (fun hfits => hfits.mono (by omega)) fun s' _ hs' => ?_
  exact di32_steps hs' (by omega) (by omega) 15 (by omega)

theorem decode16_definedIff (h : Ready text out₀ k s) (hk : 4 * k + 20 < text.length) (hfour : 4 ∣ text.length) :
    DefinedIff (decode16 (some (text.map some)) (4 * k) (3 * k) s) (GroupsFit out₀.length (k + 4))
      (Ready text out₀ (k + 4)) := by
  have hfirst := di32_definedIff h (by omega) (show 4 * k + 8 * 0 = 4 * k by omega) (show 3 * k + 6 * 0 = 3 * k by omega)
  refine hfirst.bind_of_imp (fun hfits => hfits.mono (by omega)) fun s' _ hs' => ?_
  exact di32_definedIff hs' (by omega) (by omega) (by omega)

theorem decode4_definedIff (h : Decoded text out₀ k s.out) (hk : 4 * k + 4 ≤ text.length) :
    DefinedIff (decode4 (some (text.map some)) (4 * k) (3 * k) s) (GroupsFit out₀.length (k + 1))
      (fun s => Decoded text out₀ (k + 1) s.out) := by
  rw [decode4, ctou32_text hk, ok_bind]
  exact h.stou32.bind_ok fun out _ hout => hout

end Buffer

/-! ## The loops -/

/-- **The rule for the loops**: `D` is what the rounds need, and `I` what they keep. -/
theorem forLoop_definedIff (n limit width : ℕ) {w : ℕ} [NeZero width] (hw : width = 4 * w)
    {body : ℕ → ℕ → Decoder → Outcome Exn Decoder} {D : ℕ → Prop} {I : ℕ → Decoder → Prop}
    (hD : ∀ k s, I k s → D k) (hmono : ∀ k k', k ≤ k' → D k' → D k)
    (hbody : ∀ k s, 4 * k + limit < n → I k s → DefinedIff (body (4 * k) (3 * k) s) (D (k + w)) (I (k + w))) (k : ℕ) :
    ∃ k', k ≤ k' ∧ n ≤ 4 * k' + limit ∧ (k' = k ∨ 4 * k' + limit < n + width) ∧ ∀ s, I k s →
      DefinedIff (forLoop n limit width body (4 * k) (3 * k) s) (D k')
        (fun r => r.1 = 4 * k' ∧ r.2.1 = 3 * k' ∧ I k' r.2.2) := by
  have hpos := NeZero.pos width
  by_cases hk : 4 * k + limit < n
  · obtain ⟨k', hle, hend, hlast, hrest⟩ := forLoop_definedIff n limit width hw hD hmono hbody (k + w)
    refine ⟨k', by omega, hend, ?_, fun s hs => ?_⟩
    · rcases hlast with rfl | hlast
      · exact .inr (by omega)
      · exact .inr hlast
    · have hip : 4 * k + width = 4 * (k + w) := by omega
      have hop : 3 * k + width / 4 * 3 = 3 * (k + w) := by omega
      rw [forLoop, if_pos hk, hip, hop]
      exact (hbody k s hk hs).bind_of_imp (hmono _ _ hle) fun s' _ hs' => hrest s' hs'
  · refine ⟨k, le_rfl, by omega, .inl rfl, fun s hs => ?_⟩
    rw [forLoop, if_neg hk]
    exact .ok_of (hD k s hs) ⟨rfl, rfl, hs⟩
termination_by n - 4 * k

section Decoder

variable {text : List UInt8} {out₀ : List Byte} {G : ℕ}

theorem di32_afterLoops (out₀ : List Byte) (hlen : text.length = 4 * (G + 1)) {k : ℕ} (hk : k ≤ G) :
    ∃ k', k ≤ k' ∧ k' ≤ G ∧ ∀ s, Ready text out₀ k s →
      DefinedIff (if 4 * k + 12 < text.length then
          di32 (some (text.map some)) (4 * k) (3 * k) 0 s >>= fun s => .ok (4 * k + 8, 3 * k + 6, s)
        else .ok (4 * k, 3 * k, s)) (GroupsFit out₀.length k')
        (fun r => r.1 = 4 * k' ∧ r.2.1 = 3 * k' ∧ Decoded text out₀ k' r.2.2.out) := by
  by_cases hmore : 4 * k + 12 < text.length
  · refine ⟨k + 2, by omega, by omega, fun s hs => ?_⟩
    rw [if_pos hmore]
    have hwords := di32_definedIff hs (by omega) (show 4 * k + 8 * 0 = 4 * k by omega) (show 3 * k + 6 * 0 = 3 * k by omega)
    exact hwords.bind_ok fun s' _ hs' => ⟨rfl, rfl, hs'.toDecoded⟩
  · refine ⟨k, le_rfl, hk, fun s hs => ?_⟩
    rw [if_neg hmore]
    exact .ok_of hs.fits ⟨rfl, rfl, hs.toDecoded⟩

/-- The loop over 16 characters, and the step after it. -/
theorem decode16_loop (out₀ : List Byte) (hlen : text.length = 4 * (G + 1)) {k : ℕ} (hk : k ≤ G) :
    ∃ k', k ≤ k' ∧ k' ≤ G ∧ ∀ s, Ready text out₀ k s →
      DefinedIff (forLoop text.length 20 16 (decode16 (some (text.map some))) (4 * k) (3 * k) s >>= fun (ip, op, s) =>
        if ip + 12 < text.length then di32 (some (text.map some)) ip op 0 s >>= fun s => .ok (ip + 8, op + 6, s)
        else .ok (ip, op, s)) (GroupsFit out₀.length k')
        (fun r => r.1 = 4 * k' ∧ r.2.1 = 3 * k' ∧ Decoded text out₀ k' r.2.2.out) := by
  have hfour : 4 ∣ text.length := ⟨G + 1, hlen⟩
  obtain ⟨k₂, hle, -, hlast, hloop⟩ := forLoop_definedIff text.length 20 16 rfl
    (fun k s (h : Ready text out₀ k s) => h.fits) (fun k k' hk hfits => hfits.mono hk)
    (fun k s hk h => decode16_definedIff h hk hfour) k
  obtain ⟨k', hle', hk', hstep⟩ := di32_afterLoops out₀ hlen (show k₂ ≤ G by omega)
  refine ⟨k', hle.trans hle', hk', fun s hs => ?_⟩
  refine (hloop s hs).bind_of_imp (fun hfits => hfits.mono hle') fun r _ hr => ?_
  obtain ⟨ip, op, s₂⟩ := r
  obtain ⟨rfl, rfl, hs₂⟩ := hr
  exact hstep s₂ hs₂

/-- The unrolled loops decode some groups, and leave one at least. -/
theorem decodeUnrolled_definedIff (hlen : text.length = 4 * (G + 1)) (hlong : 12 ≤ text.length) :
    ∃ k ≤ G, DefinedIff (decodeUnrolled (some (text.map some)) text.length out₀) (GroupsFit out₀.length k)
      (fun r => r.1 = 4 * k ∧ r.2.1 = 3 * k ∧ Decoded text out₀ k r.2.2.out) := by
  have hfour : 4 ∣ text.length := ⟨G + 1, hlen⟩
  obtain ⟨k₁, -, -, hlast, hloop⟩ := forLoop_definedIff text.length 132 128 rfl
    (fun k s (h : Ready text out₀ k s) => h.fits) (fun k k' hk hfits => hfits.mono hk)
    (fun k s hk h => decode128_definedIff h hk hfour) 0
  obtain ⟨k, hle, hk, hrest⟩ := decode16_loop out₀ hlen (show k₁ ≤ G by omega)
  have hu : ctou32 (some (text.map some)) 0 = .ok (groupWord text 0) := ctou32_text (k := 0) (by omega)
  have hv : ctou32 (some (text.map some)) 4 = .ok (groupWord text 1) := ctou32_text (k := 1) (by omega)
  have hready : Ready text out₀ 0 ⟨out₀, 0, groupWord text 0, groupWord text 1⟩ := ⟨decoded_zero text out₀, rfl, rfl⟩
  refine ⟨k, hk, ?_⟩
  rw [decodeUnrolled, hu, ok_bind, hv, ok_bind]
  refine (hloop _ hready).bind_of_imp (fun hfits => hfits.mono hle) fun r _ hr => ?_
  obtain ⟨ip, op, s₁⟩ := r
  obtain ⟨rfl, rfl, hs₁⟩ := hr
  exact hrest s₁ hs₁

theorem decode4_loop (hlen : text.length = 4 * (G + 1)) {k : ℕ} (hk : k ≤ G) {s : Decoder}
    (hs : Decoded text out₀ k s.out) :
    DefinedIff (forLoop text.length 4 4 (decode4 (some (text.map some))) (4 * k) (3 * k) s) (GroupsFit out₀.length G)
      (fun r => r.1 = 4 * G ∧ r.2.1 = 3 * G ∧ Decoded text out₀ G r.2.2.out) := by
  obtain ⟨k', hle, hend, hlast, hloop⟩ := forLoop_definedIff text.length 4 4 rfl
    (fun k s (h : Decoded text out₀ k s.out) => h.fits) (fun k k' hk hfits => hfits.mono hk)
    (fun k s hk h => decode4_definedIff h (by omega)) k
  obtain rfl : k' = G := by omega
  exact hloop s hs

theorem lastBytes_definedIff {n k : ℕ} (hn : 1 ≤ n) (hn' : n ≤ 3) (u : ℕ) {s : Decoder} (hs : Decoded text out₀ k s.out) :
    DefinedIff (lastBytes n (3 * k) u s) (3 * k + ((wordBytes u).take n).length ≤ out₀.length)
      (fun r => r.2.out = (decoded text k ++ (wordBytes u).take n).map some ++
        out₀.drop (3 * k + ((wordBytes u).take n).length)) := by
  have hbytes : ((wordBytes u).take n).length = n := by
    rw [List.length_take, length_wordBytes]
    omega
  have hwrite : DefinedIff (writeAt s.out (3 * k) (((wordBytes u).take n).map some) : Outcome Exn (List Byte))
      (3 * k + (((wordBytes u).take n).map some).length ≤ s.out.length)
      (· = splice s.out (3 * k) (((wordBytes u).take n).map some)) := .ite fun _ => rfl
  rw [List.length_map, hs.length] at hwrite
  refine hwrite.bind_ok fun out _ hout => ?_
  have hback := congrArg (List.drop (n - 1)) hs.back
  have hskip : 3 * k + 1 + (n - 1) = 3 * k + n := by omega
  rw [List.drop_drop, List.drop_drop, hskip] at hback
  rw [hout, splice, List.length_map, hbytes, hs.front, List.map_append, hback]

theorem decodeLast_definedIff (hlen : text.length = 4 * (G + 1)) {s : Decoder} (hs : Decoded text out₀ G s.out) :
    DefinedIff (decodeLast (some (text.map some)) text.length (4 * G) (3 * G) s)
      (3 * G + (lastGroup text G).length ≤ out₀.length)
      (fun r => r.2.out = (decoded text G ++ lastGroup text G).map some ++
        out₀.drop (3 * G + (lastGroup text G).length)) := by
  have hl : text.length - 4 * G = 4 := by omega
  have hbyte {i : ℕ} (hi : i < 4) : readByte (some (text.map some)) (4 * G + i) = .ok (text.getD (4 * G + i) 0) :=
    readByte_text (by omega)
  have hfirst : readByte (some (text.map some)) (4 * G) = .ok (text.getD (4 * G) 0) := hbyte (i := 0) (by decide)
  rw [decodeLast, lastLength, hl, if_pos rfl, hbyte (by decide), hbyte (by decide), hbyte (by decide), hfirst,
    ctou32_text (by omega)]
  simp only [ok_bind]
  rw [lastGroup, lastBytesOf]
  by_cases hd : text.getD (4 * G + 3) 0 = 61
  · by_cases hc : text.getD (4 * G + 2) 0 = 61
    · by_cases hb : text.getD (4 * G + 1) 0 = 61
      · simp only [if_pos hd, if_pos hc, if_pos hb]
        exact lastBytes_definedIff (by decide) (by decide) _ hs
      · simp only [if_pos hd, if_pos hc, if_neg hb]
        exact lastBytes_definedIff (by decide) (by decide) _ hs
    · simp only [if_pos hd, if_neg hc]
      exact lastBytes_definedIff (by decide) (by decide) _ hs
  · simp only [if_neg hd]
    exact lastBytes_definedIff (by decide) (by decide) _ hs

theorem decodeUnrolled_orNone (out₀ : List Byte) (hlen : text.length = 4 * (G + 1)) :
    ∃ k ≤ G, DefinedIff
      (if 8 + 4 ≤ text.length then decodeUnrolled (some (text.map some)) text.length out₀ else .ok (0, 0, ⟨out₀, 0, 0, 0⟩))
      (GroupsFit out₀.length k) (fun r => r.1 = 4 * k ∧ r.2.1 = 3 * k ∧ Decoded text out₀ k r.2.2.out) := by
  by_cases hlong : 8 + 4 ≤ text.length
  · simp only [if_pos hlong]
    exact decodeUnrolled_definedIff hlen hlong
  · simp only [if_neg hlong]
    exact ⟨0, Nat.zero_le _, .ok_of (.inl rfl) ⟨rfl, rfl, decoded_zero text out₀⟩⟩

theorem decode4_decodeLast (hlen : text.length = 4 * (G + 1)) {k : ℕ} (hk : k ≤ G) {s : Decoder}
    (hs : Decoded text out₀ k s.out) :
    DefinedIff (forLoop text.length 4 4 (decode4 (some (text.map some))) (4 * k) (3 * k) s >>= fun (ip, op, s) =>
      decodeLast (some (text.map some)) text.length ip op s >>= fun (op, s) =>
      .ok (if s.cu = invalidEntry then 0 else op, s.out)) (3 * G + (lastGroup text G).length ≤ out₀.length)
      (fun r => r.2 = (decoded text G ++ lastGroup text G).map some ++ out₀.drop (3 * G + (lastGroup text G).length)) := by
  have hlast := (length_lastGroup text G).1
  refine (decode4_loop hlen hk hs).bind_of_imp (fun hfits => .inr (by omega)) fun r _ hr => ?_
  obtain ⟨ip, op, s'⟩ := r
  obtain ⟨rfl, rfl, hs'⟩ := hr
  exact (decodeLast_definedIff hlen hs').bind_ok fun r _ hr => hr

/-- **What `tb64xdec` leaves in the buffer**, and how large the buffer must be. -/
theorem tb64xdec_definedIff (hlen : text.length = 4 * (G + 1)) (out : List Byte) :
    DefinedIff (tb64xdec (some (text.map some)) text.length out) (3 * G + (lastGroup text G).length ≤ out.length)
      (fun r => r.2 = (decoded text G ++ lastGroup text G).map some ++ out.drop (3 * G + (lastGroup text G).length)) := by
  obtain ⟨k, hk, hstart⟩ := decodeUnrolled_orNone out hlen
  have hsome : ¬ (text.length = 0 ∨ text.length % 4 ≠ 0) := by omega
  rw [tb64xdec, if_neg hsome]
  refine hstart.bind_of_imp (fun hfits => ?_) fun r _ hr => ?_
  · have hlast := (length_lastGroup text G).1
    exact GroupsFit.mono (.inr (by omega)) hk
  · obtain ⟨ip, op, s⟩ := r
    obtain ⟨rfl, rfl, hs⟩ := hr
    exact decode4_decodeLast hlen hk hs

end Decoder

/-! ## Encodings -/

section Encodings

open Base64

variable {b l : List UInt8} {k : ℕ}

theorem toNat_ofNat_eq {n m : ℕ} {a : UInt8} (h : n = a.toNat + 2 ^ 8 * m) : UInt8.ofNat n = a := by
  apply UInt8.toNat_inj.1
  have ha := a.toNat_lt
  rw [UInt8.toNat_ofNat']
  omega

theorem du32_word (a b c d : UInt8) :
    du32 (word a b c d) = lut tb64lutxd0 a ||| lut tb64lutxd1 b ||| lut tb64lutxd2 c ||| lut tb64lutxd3 d := by
  have ha := a.toNat_lt
  have hb := b.toNat_lt
  have hc := c.toNat_lt
  have h₀ : UInt8.ofNat (word a b c d) = a :=
    toNat_ofNat_eq (m := b.toNat + 2 ^ 8 * c.toNat + 2 ^ 16 * d.toNat) (by unfold word; omega)
  have h₁ : UInt8.ofNat (word a b c d / 2 ^ 8) = b :=
    toNat_ofNat_eq (m := c.toNat + 2 ^ 8 * d.toNat) (by unfold word; omega)
  have h₂ : UInt8.ofNat (word a b c d / 2 ^ 16) = c := toNat_ofNat_eq (m := d.toNat) (by unfold word; omega)
  have h₃ : UInt8.ofNat (word a b c d / 2 ^ 24) = d := toNat_ofNat_eq (m := 0) (by unfold word; omega)
  rw [du32, h₀, h₁, h₂, h₃]

theorem wordBytes_places (a b c : UInt8) :
    (wordBytes (place₀ (sextet₀ a) ||| place₁ (sextet₁ a b) ||| place₂ (sextet₂ b c) ||| place₃ (sextet₃ c))).take 3 =
      [a, b, c] := by
  have ha := a.toNat_lt
  have hb := b.toNat_lt
  rw [sextets_or, wordBytes]
  have h₀ : UInt8.ofNat (a.toNat + 2 ^ 8 * b.toNat + 2 ^ 16 * c.toNat) = a :=
    toNat_ofNat_eq (m := b.toNat + 2 ^ 8 * c.toNat) (by omega)
  have h₁ : UInt8.ofNat ((a.toNat + 2 ^ 8 * b.toNat + 2 ^ 16 * c.toNat) / 2 ^ 8) = b :=
    toNat_ofNat_eq (m := c.toNat) (by omega)
  have h₂ : UInt8.ofNat ((a.toNat + 2 ^ 8 * b.toNat + 2 ^ 16 * c.toNat) / 2 ^ 16) = c :=
    toNat_ofNat_eq (m := 0) (by omega)
  rw [h₀, h₁, h₂]
  rfl

theorem du32_chars (a b c : UInt8) :
    (wordBytes (du32 (word (char (sextet₀ a)) (char (sextet₁ a b)) (char (sextet₂ b c)) (char (sextet₃ c))))).take 3 =
      [a, b, c] := by
  rw [du32_word, (lut_char sextet₀_lt).1, (lut_char sextet₁_lt).2.1, (lut_char sextet₂_lt).2.2.1,
    (lut_char sextet₃_lt).2.2.2]
  exact wordBytes_places a b c

theorem getD_encode (hk : 3 * k ≤ b.length) (i : ℕ) :
    (encode b).getD (4 * k + i) 0 = (encode (b.drop (3 * k))).getD i 0 := by
  rw [← drop_encode hk, List.getD, List.getD, List.getElem?_drop]

theorem decoded_encode (hk : 3 * k ≤ b.length) : decoded (encode b) k = b.take (3 * k) := by
  induction k with
  | zero => rfl
  | succ k ih =>
    have hk' : 3 * k ≤ b.length := by omega
    obtain ⟨x, y, z, l, hdrop⟩ : ∃ x y z l, b.drop (3 * k) = x :: y :: z :: l := by
      have hlen : 3 ≤ (b.drop (3 * k)).length := by
        rw [List.length_drop]
        omega
      match b.drop (3 * k), hlen with
      | x :: y :: z :: l, _ => exact ⟨x, y, z, l, rfl⟩
    have h₀ := getD_encode hk' 0
    rw [Nat.add_zero] at h₀
    rw [decoded_succ, ih hk', Nat.mul_succ, List.take_add, groupWord, h₀, getD_encode hk' 1, getD_encode hk' 2,
      getD_encode hk' 3, hdrop]
    exact congrArg _ (du32_chars x y z)

/-- The last group of an encoding, which may be padded. -/
theorem lastGroup_encode (hk : 3 * k ≤ b.length) (hlen : 1 ≤ (b.drop (3 * k)).length) (hlen' : (b.drop (3 * k)).length ≤ 3) :
    lastGroup (encode b) k = b.drop (3 * k) := by
  have h₀ := getD_encode hk 0
  rw [Nat.add_zero] at h₀
  have hpad : pad = 61 := rfl
  have hchar {v : ℕ} (hv : v < 64) : char v ≠ 61 := char_ne_pad hv
  rw [lastGroup, h₀, getD_encode hk 1, getD_encode hk 2, getD_encode hk 3]
  match b.drop (3 * k), hlen, hlen' with
  | [x], _, _ =>
    have hbytes := congrArg (List.take 1) (wordBytes_places x 0 0)
    have hnone : place₂ (sextet₂ 0 0) = 0 ∧ place₃ (sextet₃ 0) = 0 := by decide
    rw [hnone.1, hnone.2, Nat.or_zero, Nat.or_zero, List.take_take] at hbytes
    show lastBytesOf (char (sextet₀ x)) (char (sextet₁ x 0)) pad pad = [x]
    rw [lastBytesOf, if_pos hpad, if_pos hpad, if_neg (hchar sextet₁_lt), (lut_char sextet₀_lt).1,
      (lut_char sextet₁_lt).2.1]
    exact hbytes
  | [x, y], _, _ =>
    have hbytes := congrArg (List.take 2) (wordBytes_places x y 0)
    have hnone : place₃ (sextet₃ 0) = 0 := by decide
    rw [hnone, Nat.or_zero, List.take_take] at hbytes
    show lastBytesOf (char (sextet₀ x)) (char (sextet₁ x y)) (char (sextet₂ y 0)) pad = [x, y]
    rw [lastBytesOf, if_pos hpad, if_neg (hchar sextet₂_lt), (lut_char sextet₀_lt).1, (lut_char sextet₁_lt).2.1,
      (lut_char sextet₂_lt).2.2.1]
    exact hbytes
  | [x, y, z], _, _ =>
    show lastBytesOf (char (sextet₀ x)) (char (sextet₁ x y)) (char (sextet₂ y z)) (char (sextet₃ z)) = [x, y, z]
    rw [lastBytesOf, if_neg (hchar sextet₃_lt)]
    exact du32_chars x y z

/-- **An encoding is decoded to its bytes**; what the padding stands for is left as it was. -/
theorem tb64xdec_encode (hb : b ≠ []) {out : List Byte} (hout : out.length = (b.length + 2) / 3 * 3) :
    ∃ n, tb64xdec (some ((encode b).map some)) (encode b).length out = .ok (n, b.map some ++ out.drop b.length) := by
  have hpos := List.length_pos_iff.2 hb
  obtain ⟨G, hG⟩ : ∃ G, G = (b.length - 1) / 3 := ⟨_, rfl⟩
  have hlen : (encode b).length = 4 * (G + 1) := by
    rw [length_encode]
    omega
  have hk : 3 * G ≤ b.length := by omega
  have hlast : lastGroup (encode b) G = b.drop (3 * G) := by
    refine lastGroup_encode hk ?_ ?_
    · rw [List.length_drop]
      omega
    · rw [List.length_drop]
      omega
  have hspec := tb64xdec_definedIff hlen out
  rw [hlast, decoded_encode hk, List.take_append_drop, List.length_drop, Nat.add_sub_cancel' hk] at hspec
  obtain ⟨⟨n, out'⟩, hok, hout'⟩ := hspec.defined (by omega)
  have hout'' : out' = b.map some ++ out.drop b.length := hout'
  exact ⟨n, by rw [hok, hout'']⟩

end Encodings

end Nessus.Parser.Base64X
