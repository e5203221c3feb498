import Nessus.Parser.CTotal
import Nessus.Parser.Jni

/-!
# The licence gate

Two entry points initialise the plugins of one parser, `parser_init_plugin` and the native `initPlugin`, and each has
its own licence check.

* `LicenceGate` — `plugin_manager_` is only ever set by an init call whose check has passed, and an init call whose check
  has failed does nothing but report one error;
* `refused_gated_iff` — the failed checks that are gated: those of the C function with a `std::exception`;
* `licenceGate_iff` — a run of both APIs keeps the gate exactly when every failed check in it is of that kind.
-/

namespace Nessus.Parser

open Nessus.Lib Nessus.Abi

/-! ## The calls of both APIs -/

/-- A call of a C function or of a native method, with what the functions below the parser come to in it. -/
inductive EntryCall where
  | api (c : ApiCall)
  | jniInit (obj : ℕ) (made : Option Exn)
  | jniRelease (obj : ℕ)
  | jniCreateInstance (obj : ℕ) (below : Below) (qualifiedName strParam : Option String)
  | jniExecute (obj : ℕ) (below : Below) (license : Option License) (instanceId strParam : Option String)
      (imgDataArray outputDataArray : Option JByteArray)
  | jniReleaseInstance (obj : ℕ) (below : Below) (instanceId : Option String)
  | jniInitPlugin (obj : ℕ) (below : Below) (license : Option License) (configFilePath : Option String)

inductive Answer where
  | api (reply : Option Reply)
  /-- A string of Java, or null; nothing is null as well. -/
  | jni (string : Option String)

namespace EntryCall

variable {τ : Type}

def run (P : Primitives τ) : EntryCall → Eff (World τ) Exn Answer
  | api c => c.run P >>= fun reply => pure (.api reply)
  | jniInit obj made => Parser.jniInit obj made >>= fun _ => pure (.jni none)
  | jniRelease obj => Parser.jniRelease obj >>= fun _ => pure (.jni none)
  | jniCreateInstance obj below qualifiedName strParam =>
    Parser.jniCreateInstance P obj below qualifiedName strParam >>= fun string => pure (.jni string)
  | jniExecute obj below license instanceId strParam imgDataArray outputDataArray =>
    Parser.jniExecute P obj below license instanceId strParam imgDataArray outputDataArray >>= fun string =>
    pure (.jni string)
  | jniReleaseInstance obj below instanceId =>
    Parser.jniReleaseInstance P obj below instanceId >>= fun _ => pure (.jni none)
  | jniInitPlugin obj below license configFilePath =>
    Parser.jniInitPlugin P obj below license configFilePath >>= fun _ => pure (.jni none)

/-- The licence of an init call, if it is compiled in. -/
def initLicense : EntryCall → Option (Option License)
  | api (.request (.initPlugin license _) _) => some license
  | jniInitPlugin _ _ license _ => some license
  | _ => none

/-- The call comes through the C functions. -/
def isApi : EntryCall → Bool
  | api _ => true
  | _ => false

/-- An init call has a licence check. -/
def CompiledIn (c : EntryCall) : Prop := c.initLicense ≠ some none

/-- An init call whose check passes. -/
def Passed (c : EntryCall) : Prop := c.initLicense = some (some ⟨none, none⟩)

/-- An init call whose check throws `e`. -/
def Refused (c : EntryCall) (e : Exn) : Prop := c.initLicense = some (some ⟨none, some e⟩)

/-- A check that fails is one of `parser_init_plugin`, and throws a `std::exception`. -/
def GateOk (c : EntryCall) : Prop := ∀ e, c.Refused e → c.isApi = true ∧ e.isStd = true

end EntryCall

/-- The C functions and the native methods, called in any order. -/
def entryMachine {τ : Type} (P : Primitives τ) (thread : τ) :
    Machine (CallState EntryCall (World τ) Exn Answer) EntryCall :=
  callMachine (World.start thread) (EntryCall.run P)

/-! ## The gate -/

section

variable {τ : Type}

/-- A returned text that reports an error. -/
def errorText : Outcome Exn Answer → ℕ
  | .ok (.api (some (.literal _))) => 1
  | .ok (.api (some (.written value))) => if value.statusCode = some 0 then 0 else 1
  | _ => 0

/-- The errors that the caller is told of: calls of `ThrowNew`, and the text. -/
def errorsReported (r : CallRecord EntryCall (World τ) Exn Answer) : ℕ :=
  r.after.throwNew.length - r.before.throwNew.length + errorText r.outcome

/-- The call does nothing but report one error. -/
structure Gated (r : CallRecord EntryCall (World τ) Exn Answer) : Prop where
  notReached : r.after.initCalls = r.before.initCalls
  vars : r.after.vars = r.before.vars
  parserObject : r.after.parserObject = r.before.parserObject
  mObject : r.after.mObject = r.before.mObject
  oneError : errorsReported r = 1

/-- What has been done with `plugin_manager_`, and what the failed checks have done. -/
structure LicenceGate (s : CallState EntryCall (World τ) Exn Answer) : Prop where
  /-- Where it is set, an init call whose check had passed has set it so. -/
  set : ∀ pm, s.state.vars.pluginManager = some pm → ∃ r ∈ s.records,
    r.call.Passed ∧ r.before.vars.pluginManager ≠ some pm ∧ r.after.vars.pluginManager = some pm
  /-- Whatever changes it is an init call whose check has passed. -/
  changed : ∀ r ∈ s.records, r.before.vars.pluginManager ≠ r.after.vars.pluginManager → r.call.Passed
  /-- An init call whose check has failed does nothing but report one error. -/
  refused : ∀ r ∈ s.records, ∀ e, r.call.Refused e → Gated r

end

/-! ## What leaves the variables alone -/

section Keeps

variable {τ γ β : Type} {P : Primitives τ} {p : World τ → γ} {below : Below}

theorem onThread_apart (hp : ∀ w x, p { w with thread := x } = p w) : (onThread P).Apart p :=
  ⟨fun _ w => hp w _, fun _ _ w => hp w _⟩

theorem selfAbi_keeps {σ α : Type} {q : σ → γ} {id : String} {obj : Option α} {k : α → Eff σ Exn β}
    (hk : ∀ impl ∈ obj, (k impl).Keeps q) : (selfAbi id obj >>= k).Keeps q := by
  cases obj with
  | none => exact fun _ => rfl
  | some impl => exact hk impl rfl

theorem adapter_keeps (hP : (onThread P).Apart p) {held : Bool} {default : β}
    {method : ParserImpl (World τ) → Eff (World τ) Exn β} (hm : (method (parserImpl below)).Keeps p) :
    (selfAbi parserId (heldParser below held) >>= fun impl => abiCallOut (onThread P) default (method impl)).Keeps p := by
  refine selfAbi_keeps fun impl himpl w => ?_
  rw [abiCallOut_leaves hP]
  unfold heldParser at himpl
  split at himpl
  · cases himpl
    exact hm w
  · cases himpl

theorem pluginManagerCall_keeps (r : Except Exn β) : (pluginManagerCall r).Keeps p := by
  intro w
  unfold pluginManagerCall
  split <;> rfl

theorem executeConcret_keeps (strParam : String) (input output : Span) :
    (executeConcret below strParam input output).Keeps p := by
  intro w
  unfold executeConcret
  split
  · exact pluginManagerCall_keeps _ w
  all_goals rfl

theorem statusClauses_keeps {σ : Type} {q : σ → γ} :
    ∀ clause ∈ statusClauses (σ := σ), ∀ e y, clause e = some y → y.Keeps q := by
  intro clause hmem e y hy
  simp only [statusClauses, List.mem_cons, List.not_mem_nil, or_false] at hmem
  rcases hmem with rfl | rfl | rfl | rfl
  · exact catchAbi_keeps (fun _ => Eff.keeps_pure _) hy
  · exact catchParser_keeps (fun _ _ => Eff.keeps_pure _) hy
  · exact catchStd_keeps (fun _ => Eff.keeps_pure _) hy
  · exact catchStd_keeps (fun _ => Eff.keeps_pure _) hy

theorem throwNew_keeps (hp : ∀ w l, p { w with throwNew := l } = p w) (e : JavaException) : (throwNew e).Keeps p :=
  fun w => hp w _

theorem jniClauses_keeps (hp : ∀ w l, p { w with throwNew := l } = p w) {rest : Eff (World τ) Exn β} (hr : rest.Keeps p) :
    ∀ clause ∈ jniClauses rest, ∀ e y, clause e = some y → y.Keeps p := by
  intro clause hmem e y hy
  have hthen (j : JavaException) : (throwNew j >>= fun _ => rest).Keeps p := (throwNew_keeps hp j).bind fun _ => hr
  simp only [jniClauses, List.mem_cons, List.not_mem_nil, or_false] at hmem
  rcases hmem with rfl | rfl | rfl | rfl
  · exact catchAbi_keeps (fun _ => hthen _) hy
  · exact catchParser_keeps (fun _ _ => hthen _) hy
  · exact catchStd_keeps (fun _ => hthen _) hy
  · exact catchStd_keeps (fun _ => hthen _) hy

theorem nonNull_keeps {σ : Type} {q : σ → γ} (s : Option String) : (nonNull (σ := σ) s).Keeps q := by
  cases s <;> exact fun _ => rfl

theorem mayThrow_keeps {σ : Type} {q : σ → γ} (e : Option Exn) : (mayThrow (σ := σ) e).Keeps q := by
  cases e <;> exact fun _ => rfl

theorem api_keeps_vars {c : ApiCall} (hc : (EntryCall.api c).initLicense = none) : (c.run P).Keeps World.vars := by
  have hP : (onThread P).Apart World.vars := onThread_apart fun _ _ => rfl
  cases c with
  | moduleReady addModuleByName made =>
    intro w
    show (parserModuleReady addModuleByName made w).1.vars = w.vars
    unfold parserModuleReady
    repeat' split
    all_goals rfl
  | request req below =>
    intro w
    refine Eff.Keeps.bind ?_ (fun _ => Eff.keeps_pure _) w
    cases req with
    | initPlugin license configFilePath => cases hc
    | createInstance qualifiedName strParam =>
      refine Eff.Keeps.bind (tryCatch_keeps statusClauses_keeps ?_) fun _ => Eff.keeps_pure _
      refine Eff.Keeps.bind (nonNull_keeps _) fun _ => Eff.Keeps.bind (nonNull_keeps _) fun _ => ?_
      refine Eff.Keeps.bind ?_ fun _ => Eff.keeps_pure _
      exact adapter_keeps hP (pluginManagerCall_keeps _)
    | execute instanceId strParam inputData inputDataLen outputData outputDataLen =>
      refine Eff.Keeps.bind (tryCatch_keeps statusClauses_keeps ?_) fun _ => Eff.keeps_pure _
      refine Eff.Keeps.bind (nonNull_keeps _) fun _ => ?_
      refine Eff.Keeps.bind ?_ fun _ => Eff.keeps_pure _
      exact adapter_keeps hP (executeConcret_keeps _ _ _)
  | releaseInstance instanceId below =>
    intro w
    refine Eff.Keeps.bind (Eff.Keeps.bind (nonNull_keeps _) fun _ => ?_) (fun _ => Eff.keeps_pure _) w
    exact adapter_keeps hP (pluginManagerCall_keeps _)

/-- The licence check of `execute` throws at most an exception of Java. -/
theorem jniExecuteLicense_keeps_vars (license : Option License) :
    (jniExecuteLicense (τ := τ) license).Keeps World.vars := by
  cases license with
  | none => exact Eff.keeps_pure _
  | some license =>
    refine tryCatch_keeps ?_ (Eff.Keeps.bind (mayThrow_keeps _) fun _ => Eff.keeps_pure _)
    intro clause hmem e y hy
    obtain rfl := List.mem_singleton.1 hmem
    exact catchAbi_keeps (fun _ => Eff.Keeps.bind (fun _ => rfl) fun _ => Eff.keeps_pure _) hy

/-- **Only init calls touch the variables** of the singleton. -/
theorem run_keeps_vars {c : EntryCall} (hc : c.initLicense = none) : (c.run P).Keeps World.vars := by
  have hP : (onThread P).Apart World.vars := onThread_apart fun _ _ => rfl
  have hjni {α : Type} {rest : Eff (World τ) Exn α} (hr : rest.Keeps World.vars) :=
    jniClauses_keeps (p := World.vars) (fun _ _ => rfl) hr
  cases c with
  | api c => exact Eff.Keeps.bind (api_keeps_vars hc) fun _ => Eff.keeps_pure _
  | jniInit obj made =>
    exact ((mayThrow_keeps _).bind fun _ _ => rfl).bind fun _ => Eff.keeps_pure _
  | jniRelease obj => exact Eff.Keeps.bind (fun _ => rfl) fun _ => Eff.keeps_pure _
  | jniCreateInstance obj below qualifiedName strParam =>
    refine Eff.Keeps.bind (fun w => tryCatch_keeps (hjni fun _ => rfl) ?_ w) fun _ => Eff.keeps_pure _
    refine Eff.Keeps.bind ?_ fun _ => Eff.keeps_pure _
    exact adapter_keeps hP (pluginManagerCall_keeps _)
  | jniExecute obj below license instanceId strParam imgDataArray outputDataArray =>
    refine Eff.Keeps.bind (Eff.Keeps.bind (jniExecuteLicense_keeps_vars license) fun goesOn => ?_)
      fun _ => Eff.keeps_pure _
    cases goesOn with
    | false => exact Eff.keeps_pure _
    | true =>
      intro w
      refine tryCatch_keeps (hjni fun _ => rfl) (Eff.Keeps.bind ?_ fun _ => Eff.keeps_pure _) w
      exact adapter_keeps hP (executeConcret_keeps _ _ _)
  | jniReleaseInstance obj below instanceId =>
    refine Eff.Keeps.bind (fun w => ?_) fun _ => Eff.keeps_pure _
    exact adapter_keeps hP (pluginManagerCall_keeps _) w
  | jniInitPlugin obj below license configFilePath => cases hc

end Keeps

/-! ## An init call whose check fails -/

section Refused

variable {τ : Type} {P : Primitives τ} {e : Exn} {w : World τ}

theorem run_initLicenseSystem {c : EntryCall} {check : Option Exn} (hc : c.initLicense = some (some ⟨some e, check⟩)) :
    c.run P w = (w, .thrown e) := by
  cases c with
  | api c =>
    cases c with
    | request req below =>
      cases req with
      | initPlugin license configFilePath =>
        cases hc
        rfl
      | _ => cases hc
    | _ => cases hc
  | jniInitPlugin obj below license configFilePath =>
    cases hc
    rfl
  | _ => cases hc

/-- The C function: the text put together by hand, or the exception leaves it. -/
theorem api_refused (below : Below) (configFilePath : Option String) :
    (EntryCall.api (.request (.initPlugin (some ⟨none, some e⟩) configFilePath) below)).run P w =
      (w, match e.asStd .exception with
        | some what => .ok (.api (some (.literal (licenseText what))))
        | none => .thrown e) := by
  have hcheck : checkLicense (σ := World τ) (some ⟨none, some e⟩) w =
      handle [catchStd .exception fun what => pure (some (.literal (licenseText what)))] Eff.throw e w := rfl
  rw [handle_cons, catchStd] at hcheck
  cases hs : e.asStd .exception with
  | some what =>
    rw [hs] at hcheck
    have hreply : parserInitPlugin (onThread P) (heldParser below w.parserObject) (some ⟨none, some e⟩) configFilePath w =
        (w, .ok (.literal (licenseText what))) := Eff.bind_of_ok hcheck _
    exact Eff.bind_of_ok (Eff.bind_of_ok hreply _) _
  | none =>
    rw [hs] at hcheck
    have hthrown : parserInitPlugin (onThread P) (heldParser below w.parserObject) (some ⟨none, some e⟩) configFilePath w =
        (w, .thrown e) := Eff.bind_of_thrown hcheck _
    exact Eff.bind_of_thrown (Eff.bind_of_thrown hthrown _) _

theorem jni_reaches (obj : ℕ) (below : Below) (path : String) (h : w.mObject obj = true) :
    (tryCatch ((jniAdapter P obj below w).initPlugin path) (jniClauses (pure ())) w).1.initCalls = w.initCalls + 1 := by
  have hclauses := jniClauses_keeps (p := World.initCalls) (fun _ _ => rfl) (Eff.keeps_pure (σ := World τ) (ε := Exn) ())
  have hP : (onThread P).Apart World.initCalls := onThread_apart fun _ _ => rfl
  have hadapter : (jniAdapter P obj below w).initPlugin path = abiCallOut (onThread P) () (initConcret below) := by
    rw [jniAdapter, h]
    rfl
  rw [hadapter]
  exact (tryCatch_leaves hclauses _ w).trans (abiCallOut_leaves hP () (initConcret below) w)

theorem jni_null (obj : ℕ) (below : Below) (path : String) (h : w.mObject obj = false) :
    ∃ j, tryCatch ((jniAdapter P obj below w).initPlugin path) (jniClauses (pure ())) w = throwNew j w := by
  have hadapter : (jniAdapter P obj below w).initPlugin path = Eff.throw (nullInterface parserId) := by
    rw [jniAdapter, h]
    rfl
  rw [hadapter]
  exact ⟨_, rfl⟩

/-- Where the native method catches the exception of the check, it goes on: it reaches `init_plugin`, or reports a second
error. -/
theorem jni_refused_abi (obj : ℕ) (below : Below) (configFilePath : Option String) (ex : AbiError) :
    ∃ w', ((EntryCall.jniInitPlugin obj below (some ⟨none, some (.abi ex)⟩) configFilePath).run P w).1 = w' ∧
      (w'.initCalls = w.initCalls + 1 ∨ w'.throwNew.length = w.throwNew.length + 2) := by
  refine ⟨_, rfl, ?_⟩
  obtain ⟨w₁, hw₁⟩ : ∃ w₁, w₁ = { w with throwNew := w.throwNew ++ [JavaException.what (ex.what.getD "")] } := ⟨_, rfl⟩
  have hlicense : jniInitLicense (some ⟨none, some (.abi ex)⟩) w = (w₁, .ok ()) := by
    rw [hw₁]
    rfl
  have hrun : (EntryCall.jniInitPlugin obj below (some ⟨none, some (.abi ex)⟩) configFilePath).run P w =
      (tryCatch ((jniAdapter P obj below w₁).initPlugin (configFilePath.getD "")) (jniClauses (pure ())) >>= fun _ =>
        pure (.jni none)) w₁ := by
    have hinit := Eff.bind_of_ok hlicense fun _ w =>
      tryCatch ((jniAdapter P obj below w).initPlugin (configFilePath.getD "")) (jniClauses (pure ())) w
    exact congrArg (fun r => Eff.bind (fun _ => r) (fun _ => pure (Answer.jni none)) w₁) hinit
  rw [hrun]
  cases h : w.mObject obj with
  | true =>
    left
    have hreach := jni_reaches (P := P) (w := w₁) obj below (configFilePath.getD "") (by rw [hw₁]; exact h)
    rw [hw₁] at hreach ⊢
    exact (Eff.bind_keeps (p := World.initCalls) (fun _ => Eff.keeps_pure _) _).trans hreach
  | false =>
    right
    obtain ⟨j, hnull⟩ := jni_null (P := P) (w := w₁) obj below (configFilePath.getD "") (by rw [hw₁]; exact h)
    rw [Eff.bind_apply, hnull, hw₁]
    simp [throwNew, Eff.modify]

theorem jni_refused_other (obj : ℕ) (below : Below) (configFilePath : Option String) (he : e.asAbi = none) :
    (EntryCall.jniInitPlugin obj below (some ⟨none, some e⟩) configFilePath).run P w = (w, .thrown e) := by
  have hlicense : jniInitLicense (some ⟨none, some e⟩) w = (w, .thrown e) := by
    show handle [catchAbi fun ex => throwNew (.what (ex.what.getD ""))] Eff.throw e w = _
    rw [handle_cons, catchAbi, he]
    rfl
  exact Eff.bind_of_thrown (Eff.bind_of_thrown hlicense _) _

/-- **A failed check is gated exactly when** it is the one of the C function and throws a `std::exception`. -/
theorem refused_gated_iff {c : EntryCall} (hc : c.Refused e) :
    Gated (.of (EntryCall.run P) c w) ↔ c.isApi = true ∧ e.isStd = true := by
  cases c with
  | api c =>
    cases c with
    | request req below =>
      cases req with
      | initPlugin license configFilePath =>
        cases hc
        have hrun := api_refused (P := P) (e := e) (w := w) below configFilePath
        cases hs : e.asStd .exception with
        | some what =>
          rw [hs] at hrun
          have hstd : e.isStd = true := by rw [Exn.isStd, hs]; rfl
          refine iff_of_true ?_ ⟨rfl, hstd⟩
          constructor <;> simp [CallRecord.of, hrun, errorsReported, errorText]
        | none =>
          rw [hs] at hrun
          have hstd : e.isStd ≠ true := by rw [Exn.isStd, hs]; decide
          refine iff_of_false (fun h => ?_) fun h => hstd h.2
          have hone := h.oneError
          simp [CallRecord.of, hrun, errorsReported, errorText] at hone
      | _ => cases hc
    | _ => cases hc
  | jniInitPlugin obj below license configFilePath =>
    cases hc
    refine iff_of_false (fun h => ?_) fun h => by cases h.1
    have hreach := h.notReached
    have hone := h.oneError
    cases hs : e.asAbi with
    | some ex =>
      obtain rfl : e = .abi ex := by
        cases e <;> cases hs
        rfl
      obtain ⟨w', hw', hcase⟩ := jni_refused_abi (P := P) (w := w) obj below configFilePath ex
      simp only [CallRecord.of, errorsReported, hw'] at hreach hone
      omega
    | none =>
      simp [CallRecord.of, jni_refused_other (P := P) (w := w) obj below configFilePath hs, errorsReported, errorText]
        at hone
  | _ => cases hc

end Refused

/-! ## Runs -/

section Runs

variable {τ : Type} {P : Primitives τ}

/-- An init call whose check does not pass, and is gated if it fails, leaves the variables alone. -/
theorem vars_kept {c : EntryCall} {w : World τ} (hin : c.CompiledIn) (hok : c.GateOk) (hno : ¬ c.Passed) :
    (c.run P w).1.vars = w.vars := by
  cases hc : c.initLicense with
  | none => exact run_keeps_vars hc w
  | some license =>
    cases license with
    | none => exact absurd hc hin
    | some license =>
      obtain ⟨e₁, e₂⟩ := license
      cases e₁ with
      | some e => rw [run_initLicenseSystem hc]
      | none =>
        cases e₂ with
        | none => exact absurd hc hno
        | some e => exact ((refused_gated_iff (P := P) (w := w) hc).2 (hok e hc)).vars

/-- **A run of the C functions and the native methods keeps the licence gate exactly when** every init call whose check
fails is one of `parser_init_plugin`, and the check throws a `std::exception` there. -/
theorem licenceGate_iff (P : Primitives τ) (thread : τ) : ∀ t s, (entryMachine P thread).run t = some s →
    (∀ c ∈ t, c.CompiledIn) → (LicenceGate s ↔ ∀ c ∈ t, c.GateOk) := by
  intro t s h hin
  have hr := callMachine_records t s h
  have hcalls := callMachine_calls t s h
  have hmem {r : CallRecord EntryCall (World τ) Exn Answer} (hr : r ∈ s.records) : r.call ∈ t := by
    rw [← hcalls]
    exact List.mem_map_of_mem hr
  constructor
  · intro hgate c hc e he
    rw [← hcalls] at hc
    obtain ⟨r, hrec, rfl⟩ := List.mem_map.1 hc
    have hgated := hgate.refused r hrec e he
    rw [hr r hrec] at hgated
    exact (refused_gated_iff he).1 hgated
  · intro hok
    have hchanged : ∀ r ∈ s.records, r.before.vars.pluginManager ≠ r.after.vars.pluginManager → r.call.Passed := by
      intro r hrec hne
      by_contra hno
      have hkept := vars_kept (P := P) (w := r.before) (hin _ (hmem hrec)) (hok _ (hmem hrec)) hno
      have hafter : r.after = (r.call.run P r.before).1 := by
        conv_lhs => rw [hr r hrec]
        rfl
      rw [hafter, hkept] at hne
      exact hne rfl
    refine ⟨fun pm hpm => ?_, hchanged, fun r hrec e he => ?_⟩
    · rcases callMachine_changed (fun w => w.vars.pluginManager) t s h with hstart | ⟨r, hrec, hne, ha⟩
      · rw [hpm] at hstart
        cases hstart
      · rw [hpm] at ha
        exact ⟨r, hrec, hchanged r hrec hne, ha ▸ hne, ha⟩
    · rw [hr r hrec]
      exact (refused_gated_iff he).2 (hok _ (hmem hrec) e he)

end Runs

/-- The check of `parser_init_plugin` throws a `std::exception`, and the next one passes. -/
def retrySession : List EntryCall :=
  [.api (.moduleReady true none),
   .api (.request (.initPlugin (some ⟨none, some (.std .runtimeError "expired")⟩) (some "config.json")) .succeeding),
   .api (.request (.initPlugin (some ⟨none, none⟩) (some "config.json")) .succeeding)]

theorem retrySession_licenceGate :
    ∃ s, (entryMachine Primitives.slot none).run retrySession = some s ∧ s.state.vars.pluginManager = some 0 ∧
      LicenceGate s := by
  refine ⟨_, rfl, rfl, (licenceGate_iff Primitives.slot none retrySession _ rfl fun c hc => ?_).2 fun c hc e he => ?_⟩
  · simp only [retrySession, List.mem_cons, List.not_mem_nil, or_false] at hc
    rcases hc with rfl | rfl | rfl <;> intro h <;> cases h
  · simp only [retrySession, List.mem_cons, List.not_mem_nil, or_false] at hc
    rcases hc with rfl | rfl | rfl
    · cases he
    · cases he
      exact ⟨rfl, by decide⟩
    · cases he

/-- A licence that has expired, with a native `init` before the native `initPlugin`. -/
def expiredSession : List EntryCall :=
  [.jniInit 0 none,
   .jniInitPlugin 0 .succeeding (some ⟨none, some (.abi (.of .failure (some "expired")))⟩) (some "config.json")]

/-- The native `initPlugin` sets `plugin_manager_` after its check has failed. -/
theorem not_licenceGate_expired :
    ∃ s, (entryMachine Primitives.slot none).run expiredSession = some s ∧ s.state.vars.pluginManager = some 0 ∧
      s.state.initCalls = 1 ∧ s.state.throwNew.length = 1 ∧ ¬ LicenceGate s := by
  have hrun : (entryMachine Primitives.slot none).run expiredSession = some _ := rfl
  refine ⟨_, hrun, rfl, rfl, rfl, fun h => ?_⟩
  obtain ⟨r, hr, hp, -⟩ := h.set 0 rfl
  have hc := List.mem_map_of_mem (f := CallRecord.call) hr
  rw [callMachine_calls expiredSession _ hrun] at hc
  simp only [expiredSession, List.mem_cons, List.not_mem_nil, or_false] at hc
  rcases hc with hc | hc <;> rw [hc] at hp <;> cases hp

end Nessus.Parser
