import Nessus.Lib.Calls
import Nessus.Parser.Impl
import Nessus.Parser.StatusCode

/-!
# When the C functions return

* `WellFormed` — a NUL-terminated JSON object with an integer `status.code`;
* `ApiCall.Total` — the contract of a call; `total_iff` says exactly which calls keep it;
* `capi_total` — in every order of calls, all keep it where all meet the condition of `total_iff`.
-/

namespace Nessus.Parser

open Nessus.Lib Nessus.Abi Nessus.Lib.Json

/-! ## The text -/

/-- The C string in the buffer. -/
def CString (buffer : List (Option Char)) (t : List Char) : Prop :=
  NulFree t ∧ ∃ rest, buffer = t.map some ++ some (Char.ofNat 0) :: rest

/-- The value is an object whose `status.code` is an integer. -/
def HasStatusCode (v : Tree) : Prop :=
  ∃ ms n, v = .object ms ∧ ((v.member "status".toList).bind fun s => s.member "code".toList) = some (.number n) ∧ Integer n

/-- A NUL-terminated text that is JSON, an object with an integer `status.code`. -/
def WellFormed (buffer : List (Option Char)) : Prop := ∃ t v, CString buffer t ∧ Denotes v t ∧ HasStatusCode v

section Text

variable {snprintf : ℚ → List Char}

theorem lookup_memberTrees (snprintf : ℚ → List Char) (ms : List (String × Json)) (key : String) :
    (Json.memberTrees snprintf ms).lookup key.toList = (ms.lookup key).map (Json.tree snprintf) := by
  induction ms with
  | nil => rfl
  | cons m ms ih =>
    obtain ⟨name, v⟩ := m
    rw [Json.memberTrees, Json.memberTree]
    by_cases h : key = name
    · subst h
      rw [List.lookup_cons_self, List.lookup_cons_self, Option.map_some]
    · have h' : key.toList ≠ name.toList := fun hn => h (String.toList_inj.1 hn)
      rw [List.lookup_cons, List.lookup_cons, beq_false_of_ne h, beq_false_of_ne h', ih]

theorem hasStatusCode_tree {v : Json} {code : ℤ} (h : v.statusCode = some code) : HasStatusCode (v.tree snprintf) := by
  unfold Json.statusCode at h
  split at h
  · next members =>
    split at h
    · next statusMembers hs =>
      split at h
      · next i hc =>
        refine ⟨_, valueToStringInt i, rfl, ?_, valueToStringInt_integer i⟩
        have h₁ := lookup_memberTrees snprintf members "status"
        have h₂ := lookup_memberTrees snprintf statusMembers "code"
        rw [hs] at h₁
        rw [hc] at h₂
        show ((Json.memberTrees snprintf members).lookup "status".toList).bind _ = _
        rw [h₁]
        exact h₂
      · cases h
    · cases h
  · cases h

/-- What the writer makes of a value with a status is well formed. -/
theorem wellFormed_written (hreal : ∀ q, Number (snprintf q)) {v : Json} {code : ℤ} (h : v.statusCode = some code) :
    WellFormed ((Reply.written v).buffer snprintf) := by
  have hd := write_denotes hreal v
  refine ⟨write snprintf v, v.tree snprintf, ⟨hd.nulFree, [], ?_⟩, hd, hasStatusCode_tree h⟩
  simp [Reply.buffer]

/-- The text that is put together by hand has no terminator in its buffer. -/
theorem not_wellFormed_literal {text : List Char} (h : NulFree text) :
    ¬ WellFormed ((Reply.literal text).buffer snprintf) := by
  rintro ⟨t, v, ⟨-, rest, hb⟩, -⟩
  have hmem : some (Char.ofNat 0) ∈ (Reply.literal text).buffer snprintf := by
    rw [hb]
    simp
  simp only [Reply.buffer, List.mem_append, List.mem_map, List.mem_singleton] at hmem
  rcases hmem with ⟨c, hc, h0⟩ | hmem
  · exact h c hc (by rw [Option.some_inj.1 h0]; rfl)
  · cases hmem

end Text

/-! ## One call -/

/-- What leaves the parser is a value, or an exception that derives from `std::exception` or is an `abi_error`. -/
def Contained {α : Type} (o : Outcome Exn α) : Prop :=
  (∃ a, o = .ok a) ∨ ∃ e, o = .thrown e ∧ ∀ type, e ≠ .foreign type

/-- The evaluation comes to a value with a status exactly where `D` holds, and to no value elsewhere. -/
structure ReturnsIff {σ : Type} (x : Eff σ Exn Json) (s : σ) (D : Prop) : Prop where
  returns : D → ∃ t v code, x s = (t, .ok v) ∧ v.statusCode = some code
  fails : ¬ D → ∀ t v, x s ≠ (t, .ok v)

section ReturnsIff

variable {σ β : Type} {P : Primitives σ} {default : β} {body : Eff σ Exn β} {k : β → Eff σ Exn Json} {s : σ}

theorem returnsIff_thrown_abi {x : Eff σ Exn Json} {t : σ} {ex : AbiError} {D : Prop}
    (h : x s = (t, .thrown (.abi ex))) (hD : D) : ReturnsIff (tryStatus x) s D :=
  ⟨fun _ => ⟨t, _, _, tryStatus_abi h, statusCode_status _ _⟩, fun hno => absurd hD hno⟩

theorem returnsIff_callOut (body : Eff σ Exn β) (hk : ∀ b s, ∃ v, k b s = (s, .ok v) ∧ v.statusCode = some 0) :
    ReturnsIff (tryStatus (abiCallOut P default body >>= k)) s (Contained (body s).2) := by
  have hok {t : σ} {b : β} {D : Prop} (ht : abiCallOut P default body s = (t, .ok b)) (hD : D) :
      ReturnsIff (tryStatus (abiCallOut P default body >>= k)) s D := by
    obtain ⟨v, hv, hcode⟩ := hk b t
    exact ⟨fun _ => ⟨t, v, 0, tryCatch_ok ((Eff.bind_of_ok ht k).trans hv), hcode⟩, fun hno => absurd hD hno⟩
  have hbad {t : σ} {o : Outcome Exn β} {D : Prop} (ht : abiCallOut P default body s = (t, o))
      (ho : o = .terminated ∨ o = .undefined) (hD : ¬ D) :
      ReturnsIff (tryStatus (abiCallOut P default body >>= k)) s D := by
    refine ⟨fun h => absurd h hD, fun _ t' v hv => ?_⟩
    rcases ho with rfl | rfl
    · rw [tryStatus, tryCatch_terminated (by rw [Eff.bind_apply, ht])] at hv
      cases hv
    · rw [tryStatus, tryCatch_undefined (by rw [Eff.bind_apply, ht])] at hv
      cases hv
  rcases hb : body s with ⟨t, o⟩
  cases o with
  | ok b => exact hok (callOut_ok hb) (.inl ⟨b, rfl⟩)
  | terminated =>
    exact hbad (callOut_terminated hb) (.inl rfl) (by rintro (⟨a, h⟩ | ⟨e, h, -⟩) <;> cases h)
  | undefined =>
    exact hbad (callOut_undefined hb) (.inr rfl) (by rintro (⟨a, h⟩ | ⟨e, h, -⟩) <;> cases h)
  | thrown e =>
    rcases e.kept_cases with hkept | ⟨ex, rfl, hn⟩ | ⟨type, rfl⟩
    · obtain ⟨t', c, m, ht⟩ := callOut_kept P default hb hkept
      exact returnsIff_thrown_abi (Eff.bind_of_thrown ht k) (.inr ⟨e, rfl, hkept.ne_foreign⟩)
    · obtain ⟨t', ht⟩ := callOut_abi_nonneg P default hb hn
      exact hok ht (.inr ⟨_, rfl, by simp⟩)
    · refine hbad (callOut_foreign hb) (.inl rfl) ?_
      rintro (⟨a, h⟩ | ⟨e, h, hno⟩)
      · cases h
      · cases h
        exact hno type rfl

theorem returnsIff_adapter (P : Primitives σ) (default : β) (obj : Option (ParserImpl σ))
    (method : ParserImpl σ → Eff σ Exn β) (k : β → Eff σ Exn Json) (s : σ)
    (hk : ∀ b s, ∃ v, k b s = (s, .ok v) ∧ v.statusCode = some 0) :
    ReturnsIff (tryStatus ((selfAbi parserId obj >>= fun impl => abiCallOut P default (method impl)) >>= k)) s
      (∀ impl ∈ obj, Contained (method impl s).2) := by
  cases obj with
  | none => exact returnsIff_thrown_abi (t := s) rfl (by simp)
  | some impl =>
    have hD : (∀ i ∈ some impl, Contained (method i s).2) ↔ Contained (method impl s).2 := by simp
    rw [hD]
    exact returnsIff_callOut (method impl) hk

end ReturnsIff

section Requests

variable {σ : Type} {P : Primitives σ} {obj : Option (ParserImpl σ)} {s : σ} {snprintf : ℚ → List Char}

/-- The arguments that may not be null are not, the licence check passes, and the method called keeps to the exceptions
that can cross the boundary. -/
def Request.Ok (obj : Option (ParserImpl σ)) (s : σ) : Request → Prop
  | initPlugin license configFilePath =>
    (∀ l ∈ license, l = ⟨none, none⟩) ∧
      ∃ path, configFilePath = some path ∧ ∀ impl ∈ obj, Contained (impl.initPlugin path s).2
  | createInstance qualifiedName strParam =>
    ∃ name param, qualifiedName = some name ∧ strParam = some param ∧
      ∀ impl ∈ obj, Contained (impl.createInstance name param s).2
  | execute instanceId strParam inputData inputDataLen outputData outputDataLen =>
    ∃ id, instanceId = some id ∧ ∀ impl ∈ obj, Contained (impl.execute (.ofString id.toList) (strParam.getD "")
      (.ofLen inputData inputDataLen) (.ofLen outputData outputDataLen) s).2

theorem ReturnsIff.written {x : Eff σ Exn Json} {D : Prop} (h : ReturnsIff x s D)
    (hreal : ∀ q, Number (snprintf q)) :
    (∃ t r, (x >>= fun value => pure (Reply.written value)) s = (t, .ok r) ∧ WellFormed (r.buffer snprintf)) ↔ D := by
  constructor
  · rintro ⟨t, r, hr, -⟩
    by_contra hD
    rw [Eff.bind_apply] at hr
    rcases hx : x s with ⟨t', v | _ | _ | _⟩ <;> rw [hx] at hr <;> cases hr
    exact h.fails hD _ _ hx
  · intro hD
    obtain ⟨t, v, code, hv, hcode⟩ := h.returns hD
    exact ⟨t, .written v, by rw [Eff.bind_of_ok hv]; rfl, wellFormed_written hreal hcode⟩

theorem returnsIff_null {x : Eff σ Exn Json} {D : Prop} (h : x s = (s, .undefined)) (hD : ¬ D) :
    ReturnsIff (tryStatus x) s D := by
  refine ⟨fun h => absurd h hD, fun _ t v hv => ?_⟩
  rw [tryStatus, tryCatch_undefined h] at hv
  cases hv

theorem nulFree_licenseText (what : String) : NulFree (licenseText what) := by
  have hwhat : NulFree (cString what) := fun c hc => by
    have hp := List.all_eq_true.1 (List.all_takeWhile (p := fun c : Char => decide (c.toNat ≠ 0)) (l := what.toList)) c hc
    exact of_decide_eq_true hp
  exact .append (.append (by decide) hwhat) (by decide)

/-- A licence check that does not pass leaves no well-formed text. -/
theorem checkLicense_fails {license : Option License} (hl : ¬ ∀ l ∈ license, l = ⟨none, none⟩) :
    (∃ text, checkLicense license s = (s, .ok (some (.literal text))) ∧ NulFree text) ∨
      ∃ e, checkLicense license s = (s, .thrown e) := by
  cases license with
  | none => exact absurd (by simp) hl
  | some l =>
    obtain ⟨e₁, e₂⟩ := l
    cases e₁ with
    | some e => exact .inr ⟨e, rfl⟩
    | none =>
      cases e₂ with
      | none => exact absurd (by simp) hl
      | some e =>
        cases hs : e.asStd .exception with
        | some what =>
          refine .inl ⟨licenseText what, ?_, nulFree_licenseText what⟩
          show handle _ _ e s = _
          rw [handle_cons, catchStd, hs]
          rfl
        | none =>
          refine .inr ⟨e, ?_⟩
          show handle _ _ e s = _
          rw [handle_cons, catchStd, hs]
          rfl

/-- The call of `req` returns a well-formed text exactly when it is `Ok`. -/
def Request.TotalIff (P : Primitives σ) (obj : Option (ParserImpl σ)) (s : σ) (snprintf : ℚ → List Char)
    (req : Request) : Prop :=
  (∃ t r, req.call P obj s = (t, .ok r) ∧ WellFormed (r.buffer snprintf)) ↔ req.Ok obj s

theorem initPlugin_totalIff (hreal : ∀ q, Number (snprintf q)) (license : Option License)
    (configFilePath : Option String) : (Request.initPlugin license configFilePath).TotalIff P obj s snprintf := by
  rw [Request.TotalIff, Request.call, parserInitPlugin, Request.Ok]
  by_cases hl : ∀ l ∈ license, l = ⟨none, none⟩
  · rw [Eff.bind_of_ok (checkLicense_none hl s)]
    cases configFilePath with
    | none =>
      refine iff_of_false ?_ (by simp)
      rintro ⟨t, r, h, -⟩
      cases h
    | some path =>
      have h := (returnsIff_adapter P () obj (fun impl => impl.initPlugin path)
        (fun _ => pure (.object [status 0 "OK"])) s fun _ _ => ⟨_, rfl, rfl⟩).written hreal
      refine h.trans ⟨fun hc => ⟨hl, path, rfl, hc⟩, ?_⟩
      rintro ⟨-, path', hp, hc⟩
      cases hp
      exact hc
  · refine iff_of_false ?_ fun h => hl h.1
    rintro ⟨t, r, h, hw⟩
    rcases checkLicense_fails (s := s) hl with ⟨text, hc, ht⟩ | ⟨e, hc⟩
    · rw [Eff.bind_of_ok hc] at h
      cases h
      exact not_wellFormed_literal ht hw
    · rw [Eff.bind_of_thrown hc] at h
      cases h

theorem createInstance_totalIff (hreal : ∀ q, Number (snprintf q)) (qualifiedName strParam : Option String) :
    (Request.createInstance qualifiedName strParam).TotalIff P obj s snprintf := by
  rw [Request.TotalIff, Request.call, parserCreateInstance, Request.Ok]
  cases qualifiedName with
  | none =>
    refine ReturnsIff.written (returnsIff_null rfl ?_) hreal
    rintro ⟨_, _, ⟨⟩, -⟩
  | some name =>
    cases strParam with
    | none =>
      refine ReturnsIff.written (returnsIff_null rfl ?_) hreal
      rintro ⟨_, _, -, ⟨⟩, -⟩
    | some param =>
      have h := (returnsIff_adapter P ⟨0, 0, 0, Vector.replicate 8 0⟩ obj (fun impl => impl.createInstance name param)
        (fun id => pure (.object [("instance_id", .string id.toString), status 0 "OK"])) s
        fun _ _ => ⟨_, rfl, rfl⟩).written hreal
      refine h.trans ⟨fun hc => ⟨name, param, rfl, rfl, hc⟩, ?_⟩
      rintro ⟨name', param', hn, hp, hc⟩
      cases hn
      cases hp
      exact hc

theorem execute_totalIff (hreal : ∀ q, Number (snprintf q)) (instanceId strParam : Option String)
    (inputData : Option (List Byte)) (inputDataLen : ℤ) (outputData : Option (List Byte)) (outputDataLen : ℤ) :
    (Request.execute instanceId strParam inputData inputDataLen outputData outputDataLen).TotalIff P obj s snprintf := by
  rw [Request.TotalIff, Request.call, parserExecute, Request.Ok]
  cases instanceId with
  | none =>
    refine ReturnsIff.written (returnsIff_null rfl ?_) hreal
    rintro ⟨_, ⟨⟩, -⟩
  | some id =>
    have h := (returnsIff_adapter P none obj
      (fun impl => impl.execute (.ofString id.toList) (strParam.getD "") (.ofLen inputData inputDataLen)
        (.ofLen outputData outputDataLen))
      (fun result => pure (.object [("result", .string (result.getD "")), status 0 "OK"])) s
      fun _ _ => ⟨_, rfl, rfl⟩).written hreal
    refine h.trans ⟨fun hc => ⟨id, rfl, hc⟩, ?_⟩
    rintro ⟨id', hi, hc⟩
    cases hi
    exact hc

/-- **A call returns a well-formed text exactly when it is `Ok`.** -/
theorem request_total_iff (hreal : ∀ q, Number (snprintf q)) (req : Request) :
    (∃ t r, req.call P obj s = (t, .ok r) ∧ WellFormed (r.buffer snprintf)) ↔ req.Ok obj s := by
  cases req with
  | initPlugin license configFilePath => exact initPlugin_totalIff hreal license configFilePath
  | createInstance qualifiedName strParam => exact createInstance_totalIff hreal qualifiedName strParam
  | execute instanceId strParam inputData inputDataLen outputData outputDataLen =>
    exact execute_totalIff hreal instanceId strParam inputData inputDataLen outputData outputDataLen

/-- What is thrown is an `abi_error` that `check_abi_result` takes for success, or nothing is. -/
def Swallowed {α : Type} (o : Outcome Exn α) : Prop :=
  (∃ a, o = .ok a) ∨ ∃ ex : AbiError, o = .thrown (.abi ex) ∧ AbiResult.noError ex.result = true

theorem callOut_returns_iff {body : Eff σ Exn Unit} :
    (∃ t, abiCallOut P () body s = (t, .ok ())) ↔ Swallowed (body s).2 := by
  have hno {t : σ} {o : Outcome Exn Unit} (ht : abiCallOut P () body s = (t, o)) (ho : o ≠ .ok ())
      (hs : ¬ Swallowed (body s).2) : (∃ t, abiCallOut P () body s = (t, .ok ())) ↔ Swallowed (body s).2 := by
    refine iff_of_false ?_ hs
    rintro ⟨t', h⟩
    rw [ht] at h
    exact ho (Prod.mk.inj h).2
  rcases hb : body s with ⟨t, o⟩
  rw [hb] at hno
  cases o with
  | ok u => exact iff_of_true ⟨t, callOut_ok hb⟩ (.inl ⟨u, rfl⟩)
  | terminated => exact hno (callOut_terminated hb) (by simp) (by rintro (⟨_, ⟨⟩⟩ | ⟨_, ⟨⟩, -⟩))
  | undefined => exact hno (callOut_undefined hb) (by simp) (by rintro (⟨_, ⟨⟩⟩ | ⟨_, ⟨⟩, -⟩))
  | thrown e =>
    rcases e.kept_cases with hkept | ⟨ex, rfl, hn⟩ | ⟨type, rfl⟩
    · obtain ⟨t', c, m, ht⟩ := callOut_kept P () hb hkept
      refine hno ht (by simp) ?_
      rintro (⟨_, ⟨⟩⟩ | ⟨ex, he, hn⟩)
      cases he
      rw [hkept.noError_false] at hn
      cases hn
    · exact iff_of_true (callOut_abi_nonneg P () hb hn) (.inr ⟨ex, rfl, hn⟩)
    · exact hno (callOut_foreign hb) (by simp) (by rintro (⟨_, ⟨⟩⟩ | ⟨_, ⟨⟩, -⟩))

/-- **A release returns exactly when** the id and the parser are not null and nothing is thrown. -/
theorem release_total_iff (P : Primitives σ) (obj : Option (ParserImpl σ)) (s : σ) (instanceId : Option String) :
    (∃ t, parserReleaseInstance P obj instanceId s = (t, .ok ())) ↔
      ∃ id impl, instanceId = some id ∧ obj = some impl ∧ Swallowed (impl.releaseInstance (.ofString id.toList) s).2 := by
  cases instanceId with
  | none =>
    refine iff_of_false ?_ (by rintro ⟨_, _, ⟨⟩, -⟩)
    rintro ⟨t, h⟩
    cases h
  | some id =>
    cases obj with
    | none =>
      refine iff_of_false ?_ (by rintro ⟨_, _, -, ⟨⟩, -⟩)
      rintro ⟨t, h⟩
      cases h
    | some impl =>
      have hcall : parserReleaseInstance P (some impl) (some id) s =
          abiCallOut P () (impl.releaseInstance (.ofString id.toList)) s := rfl
      rw [hcall, callOut_returns_iff]
      refine ⟨fun h => ⟨id, impl, rfl, rfl, h⟩, ?_⟩
      rintro ⟨id', impl', hi, ho, h⟩
      cases hi
      cases ho
      exact h

end Requests

/-! ## Calls in any order -/

/-- A call of one of the four functions, with what the functions below the parser come to in it. -/
inductive ApiCall where
  /-- The static initialisation. -/
  | moduleReady (addModuleByName : Bool) (made : Option Exn)
  | request (req : Request) (below : Below)
  | releaseInstance (instanceId : Option String) (below : Below)

namespace ApiCall

variable {τ : Type} {P : Primitives τ} {snprintf : ℚ → List Char}

/-- The call, with the text it returns if it returns one. -/
def run (P : Primitives τ) : ApiCall → Eff (World τ) Exn (Option Reply)
  | moduleReady addModuleByName made => fun w => ((parserModuleReady addModuleByName made w).1, .ok none)
  | request req below => fun w =>
    (req.call (onThread P) (heldParser below w.parserObject) >>= fun reply => pure (some reply)) w
  | releaseInstance instanceId below => fun w =>
    (parserReleaseInstance (onThread P) (heldParser below w.parserObject) instanceId >>= fun _ => pure none) w

/-- The call returns, and a text that it returns is well formed. -/
def Total (snprintf : ℚ → List Char) (c : ApiCall) (o : Outcome Exn (Option Reply)) : Prop :=
  match c with
  | moduleReady _ _ => o = .ok none
  | request _ _ => ∃ reply, o = .ok (some reply) ∧ WellFormed (reply.buffer snprintf)
  | releaseInstance _ _ => o = .ok none

/-- The arguments that may not be null are not, the licence check passes, what is called below keeps to the exceptions
that can cross the boundary, and for a release there is a parser and nothing is thrown that is an error. -/
def Ok (w : World τ) : ApiCall → Prop
  | moduleReady _ _ => True
  | request req below => req.Ok (heldParser below w.parserObject) w
  | releaseInstance instanceId below =>
    instanceId.isSome ∧ w.parserObject = true ∧
      Swallowed (pluginManagerCall below.releaseAlgoInstance w).2

/-- **A call keeps its contract exactly when it is `Ok`.** -/
theorem total_iff (hreal : ∀ q, Number (snprintf q)) (c : ApiCall) (w : World τ) :
    c.Total snprintf (c.run P w).2 ↔ c.Ok w := by
  cases c with
  | moduleReady addModuleByName made => exact iff_of_true rfl trivial
  | request req below =>
    refine Iff.trans ?_ (request_total_iff (P := onThread P) hreal req)
    have hrun : (request req below).run P w =
        (req.call (onThread P) (heldParser below w.parserObject) >>= fun reply => pure (some reply)) w := rfl
    rw [Total, hrun, Eff.bind_apply]
    rcases req.call (onThread P) (heldParser below w.parserObject) w with ⟨t, r | _ | _ | _⟩
    · constructor
      · rintro ⟨_, ho, hw⟩
        cases ho
        exact ⟨t, r, rfl, hw⟩
      · rintro ⟨_, _, ho, hw⟩
        cases ho
        exact ⟨r, rfl, hw⟩
    all_goals exact iff_of_false (by rintro ⟨_, ⟨⟩, -⟩) (by rintro ⟨_, _, ⟨⟩, -⟩)
  | releaseInstance instanceId below =>
    have h := release_total_iff (onThread P) (heldParser below w.parserObject) w instanceId
    have hok : (releaseInstance instanceId below).Ok w ↔ ∃ id impl, instanceId = some id ∧
        heldParser below w.parserObject = some impl ∧ Swallowed (impl.releaseInstance (.ofString id.toList) w).2 := by
      rw [Ok, Option.isSome_iff_exists]
      constructor
      · rintro ⟨⟨id, rfl⟩, hp, hs⟩
        exact ⟨id, parserImpl below, rfl, by rw [hp]; rfl, hs⟩
      · rintro ⟨id, impl, rfl, hp, hs⟩
        rw [heldParser] at hp
        split at hp
        · next hheld =>
          cases hp
          exact ⟨⟨id, rfl⟩, hheld, hs⟩
        · cases hp
    have hrun : (releaseInstance instanceId below).run P w =
        (parserReleaseInstance (onThread P) (heldParser below w.parserObject) instanceId >>= fun _ => pure none) w := rfl
    rw [hok, ← h, Total, hrun, Eff.bind_apply]
    rcases parserReleaseInstance (onThread P) (heldParser below w.parserObject) instanceId w with ⟨t, r | _ | _ | _⟩
    · exact iff_of_true rfl ⟨t, rfl⟩
    all_goals
      refine iff_of_false (by simp) ?_
      rintro ⟨_, ⟨⟩⟩

end ApiCall

/-- The C functions, called in any order. -/
def apiMachine {τ : Type} (P : Primitives τ) (thread : τ) :
    Machine (CallState ApiCall (World τ) Exn (Option Reply)) ApiCall :=
  callMachine (World.start thread) (ApiCall.run P)

/-- **The contract of the C functions holds in a run exactly when** every call of it is `Ok` in the state it is made
in. -/
theorem capi_total {τ : Type} (P : Primitives τ) (thread : τ) (snprintf : ℚ → List Char)
    (hreal : ∀ q, Number (snprintf q)) : ∀ t s, (apiMachine P thread).run t = some s →
      ((∀ r ∈ s.records, r.call.Total snprintf r.outcome) ↔ ∀ r ∈ s.records, r.call.Ok r.before) := by
  intro t s h
  have hr := callMachine_records t s h
  have hiff (r) (hmem : r ∈ s.records) : r.call.Total snprintf r.outcome ↔ r.call.Ok r.before := by
    rw [← ApiCall.total_iff (P := P) hreal]
    have ho : r.outcome = (r.call.run P r.before).2 := by
      conv_lhs => rw [hr r hmem]
      rfl
    rw [ho]
  exact ⟨fun ht r hmem => (hiff r hmem).1 (ht r hmem), fun ht r hmem => (hiff r hmem).2 (ht r hmem)⟩

/-- Functions below the parser that succeed, with an empty request. -/
def Below.succeeding : Below where
  libs := .reading (.object [])
  init := ⟨.ok (some (.object [])), [], .ok 0⟩
  createAlgoInstance := .ok ⟨1, 2, 3, Vector.replicate 8 4⟩
  executeAlgo _ := .ok (some "done")
  releaseAlgoInstance := .ok ()

/-- The parser is loaded, an instance is created, executed and released. -/
def wholeSession : List ApiCall :=
  [.moduleReady true none, .request (.initPlugin (some ⟨none, none⟩) (some "config.json")) .succeeding,
   .request (.createInstance (some "algo") (some "")) .succeeding,
   .request (.execute (some "id") none none 0 none 0) .succeeding, .releaseInstance (some "id") .succeeding]

theorem wholeSession_total :
    ∃ s, (apiMachine Primitives.slot none).run wholeSession = some s ∧ s.records.length = 5 ∧
      ∀ r ∈ s.records, r.call.Total (fun _ => ['0']) r.outcome := by
  refine ⟨_, rfl, rfl, ?_⟩
  have hreal (q : ℚ) : Number ((fun _ => ['0']) q) := (valueToStringInt_integer 0).number
  refine (capi_total Primitives.slot none _ hreal wholeSession _ rfl).2 fun r hr => ?_
  simp only [List.mem_append, List.mem_singleton] at hr
  rcases hr with ((((hr | rfl) | rfl) | rfl) | rfl) | rfl
  · cases hr
  · exact trivial
  · exact ⟨by simp, _, rfl, fun impl himpl => by cases himpl; exact .inl ⟨_, rfl⟩⟩
  · exact ⟨_, _, rfl, rfl, fun impl himpl => by cases himpl; exact .inl ⟨_, rfl⟩⟩
  · exact ⟨_, rfl, fun impl himpl => by cases himpl; exact .inl ⟨_, rfl⟩⟩
  · exact ⟨rfl, rfl, .inl ⟨_, rfl⟩⟩

/-- An exception leaves a release before the module is loaded, and the text of a licence failure has no terminator. -/
theorem not_total_release_license :
    (∃ s, (apiMachine Primitives.slot none).run [.releaseInstance (some "id") .succeeding] = some s ∧
      ∃ r ∈ s.records, r.outcome = .thrown (nullInterface parserId) ∧ ¬ r.call.Total (fun _ => ['0']) r.outcome) ∧
    ∃ s, (apiMachine Primitives.slot none).run
        [.request (.initPlugin (some ⟨none, some (.std .exception "expired")⟩) (some "config.json")) .succeeding] = some s ∧
      ∃ r ∈ s.records, r.outcome = .ok (some (.literal (licenseText "expired"))) ∧
        ¬ r.call.Total (fun _ => ['0']) r.outcome := by
  refine ⟨⟨_, rfl, _, List.mem_singleton_self _, rfl, fun h => by cases h⟩, ⟨_, rfl, _, List.mem_singleton_self _, rfl, ?_⟩⟩
  rintro ⟨reply, ho, hw⟩
  cases ho
  exact not_wellFormed_literal (nulFree_licenseText "expired") hw

end Nessus.Parser
