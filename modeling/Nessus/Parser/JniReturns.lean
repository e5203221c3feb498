import Nessus.Parser.Licence

/-!
# When the native methods return

`createInstance` and `execute` have no `return` behind their catch clauses: an exception that a clause has reported to
Java runs off the end of the function.

* `Returns` — a computation comes to a value;
* `returns_fallOff_iff` — under these clauses only what throws nothing does;
* `native_returns_iff` — exactly when a native method returns;
* `jni_returns` — in every order of calls of both APIs.
-/

namespace Nessus.Parser

open Nessus.Lib Nessus.Abi

/-! ## What comes to a value -/

section Returns

variable {σ α β : Type} {P : Primitives σ} {default : β} {body : Eff σ Exn β} {s : σ}

/-- The computation comes to a value. -/
def Returns (x : Eff σ Exn α) (s : σ) : Prop := ∃ t a, x s = (t, .ok a)

theorem returns_bind_pure {x : Eff σ Exn α} {f : α → β} : Returns (x >>= fun a => pure (f a)) s ↔ Returns x s := by
  constructor
  · rintro ⟨t, b, h⟩
    obtain ⟨u, a, ha, -⟩ := Eff.bind_eq_ok.1 h
    exact ⟨u, a, ha⟩
  · rintro ⟨t, a, h⟩
    exact ⟨t, f a, by rw [Eff.bind_of_ok h]; rfl⟩

theorem not_returns_thrown {x : Eff σ Exn α} {t : σ} {e : Exn} (h : x s = (t, .thrown e)) : ¬ Returns x s := by
  rintro ⟨_, _, h'⟩
  rw [h] at h'
  cases h'

theorem returns_bind_of_ok {x : Eff σ Exn α} {f : α → Eff σ Exn β} {t : σ} {a : α} (h : x s = (t, .ok a)) :
    Returns (x >>= f) s ↔ Returns (f a) t := by
  rw [Returns, Returns, Eff.bind_of_ok h]

theorem not_returns_bind_of_thrown {x : Eff σ Exn α} {f : α → Eff σ Exn β} {t : σ} {e : Exn} (h : x s = (t, .thrown e)) :
    ¬ Returns (x >>= f) s :=
  not_returns_thrown (Eff.bind_of_thrown h f)

theorem returns_abiCallOut_iff : Returns (abiCallOut P default body) s ↔ Swallowed (body s).2 := by
  have hno {t : σ} {o : Outcome Exn β} (ht : abiCallOut P default body s = (t, o)) (ho : ∀ b, o ≠ .ok b)
      (hs : ¬ Swallowed (body s).2) : Returns (abiCallOut P default body) s ↔ Swallowed (body s).2 := by
    refine iff_of_false ?_ hs
    rintro ⟨t', b, h⟩
    rw [ht] at h
    exact ho b (Prod.mk.inj h).2
  rcases hb : body s with ⟨t, o⟩
  rw [hb] at hno
  cases o with
  | ok b => exact iff_of_true ⟨t, b, callOut_ok hb⟩ (.inl ⟨b, rfl⟩)
  | terminated => exact hno (callOut_terminated hb) (by simp) (by rintro (⟨_, ⟨⟩⟩ | ⟨_, ⟨⟩, -⟩))
  | undefined => exact hno (callOut_undefined hb) (by simp) (by rintro (⟨_, ⟨⟩⟩ | ⟨_, ⟨⟩, -⟩))
  | thrown e =>
    rcases e.kept_cases with hkept | ⟨ex, rfl, hn⟩ | ⟨type, rfl⟩
    · obtain ⟨t', c, m, ht⟩ := callOut_kept P default hb hkept
      refine hno ht (by simp) ?_
      rintro (⟨_, ⟨⟩⟩ | ⟨ex, he, hn⟩)
      cases he
      rw [hkept.noError_false] at hn
      cases hn
    · obtain ⟨t', ht⟩ := callOut_abi_nonneg P default hb hn
      exact iff_of_true ⟨t', default, ht⟩ (.inr ⟨ex, rfl, hn⟩)
    · exact hno (callOut_foreign hb) (by simp) (by rintro (⟨_, ⟨⟩⟩ | ⟨_, ⟨⟩, -⟩))

theorem contained_ok (b : β) : Contained (.ok b : Outcome Exn β) := .inl ⟨b, rfl⟩

theorem contained_abi (ex : AbiError) : Contained (.thrown (.abi ex) : Outcome Exn β) := .inr ⟨_, rfl, nofun⟩

theorem not_contained_terminated : ¬ Contained (.terminated : Outcome Exn β) := by
  rintro (⟨_, ⟨⟩⟩ | ⟨_, ⟨⟩, -⟩)

theorem contained_abiCallOut_iff : Contained (abiCallOut P default body s).2 ↔ Contained (body s).2 := by
  rcases hb : body s with ⟨t, o⟩
  cases o with
  | ok b => rw [callOut_ok hb]
  | terminated => rw [callOut_terminated hb]
  | undefined => rw [callOut_undefined hb]
  | thrown e =>
    rcases e.kept_cases with hkept | ⟨ex, rfl, hn⟩ | ⟨type, rfl⟩
    · obtain ⟨t', c, m, ht⟩ := callOut_kept P default hb hkept
      rw [ht]
      exact iff_of_true (contained_abi _) (.inr ⟨e, rfl, hkept.ne_foreign⟩)
    · obtain ⟨t', ht⟩ := callOut_abi_nonneg P default hb hn
      rw [ht]
      exact iff_of_true (contained_ok _) (contained_abi ex)
    · rw [callOut_foreign hb]
      refine iff_of_false not_contained_terminated ?_
      rintro (⟨_, ⟨⟩⟩ | ⟨_, ⟨⟩, hno⟩)
      exact hno type rfl

/-- A method of a handle returns exactly when there is an object, and nothing is thrown that is an error. -/
theorem returns_adapter_iff {obj : Option (ParserImpl σ)} {method : ParserImpl σ → Eff σ Exn β} :
    Returns (selfAbi parserId obj >>= fun impl => abiCallOut P default (method impl)) s ↔
      ∃ impl, obj = some impl ∧ Swallowed (method impl s).2 := by
  cases obj with
  | none => exact iff_of_false (not_returns_thrown (t := s) rfl) (by simp)
  | some impl =>
    have hbind : (selfAbi parserId (some impl) >>= fun impl => abiCallOut P default (method impl)) s =
        abiCallOut P default (method impl) s := rfl
    rw [Returns, hbind]
    refine returns_abiCallOut_iff.trans ⟨fun h => ⟨impl, rfl, h⟩, ?_⟩
    rintro ⟨_, ⟨⟩, h⟩
    exact h

end Returns

/-! ## The clauses -/

section Clauses

variable {τ α : Type} {w : World τ}

/-- A clause reports the exception and goes on behind the clauses, or none catches it. -/
theorem handle_jniClauses (rest : Eff (World τ) Exn α) (e : Exn) :
    (∃ j, handle (jniClauses rest) Eff.throw e = (throwNew j >>= fun _ => rest) ∧ ∀ type, e ≠ .foreign type) ∨
      ∃ type, e = .foreign type ∧ handle (jniClauses rest) Eff.throw e = Eff.throw e := by
  cases e with
  | abi ex => exact .inl ⟨_, rfl, nofun⟩
  | parser c what => exact .inl ⟨_, rfl, nofun⟩
  | foreign type => exact .inr ⟨type, rfl, rfl⟩
  | std c what =>
    cases hj : (Exn.std c what).asStd .jsonException with
    | some what' =>
      refine .inl ⟨.written (.object [status ParserExceptionCode.jsonException.value.toInt64 what']), ?_, nofun⟩
      rw [jniClauses, handle_cons, handle_cons, handle_cons, catchStd, hj]
      rfl
    | none =>
      refine .inl ⟨.written (.object [status ParserExceptionCode.unknownException.value.toInt64 what]), ?_, nofun⟩
      rw [jniClauses, handle_cons, handle_cons, handle_cons, handle_cons, catchStd, hj, catchStd, Exn.asStd_exception_std]
      rfl

/-- **Where the clauses run off the end**, only what throws nothing returns. -/
theorem returns_fallOff_iff {x : Eff (World τ) Exn α} : Returns (tryCatch x (jniClauses fallOff)) w ↔ Returns x w := by
  rcases hx : x w with ⟨t, a | e | _ | _⟩
  · exact iff_of_true ⟨t, a, tryCatch_ok hx⟩ ⟨t, a, hx⟩
  · refine iff_of_false ?_ (not_returns_thrown hx)
    rintro ⟨t', a, h⟩
    rw [tryCatch_thrown hx] at h
    obtain ⟨j, hj, -⟩ | ⟨type, -, hj⟩ := handle_jniClauses (τ := τ) (α := α) fallOff e
    all_goals
      rw [hj] at h
      cases h
  · refine iff_of_false ?_ ?_ <;> rintro ⟨t', a, h⟩
    · rw [tryCatch_terminated hx] at h
      cases h
    · rw [hx] at h
      cases h
  · refine iff_of_false ?_ ?_ <;> rintro ⟨t', a, h⟩
    · rw [tryCatch_undefined hx] at h
      cases h
    · rw [hx] at h
      cases h

/-- Where they return, what a clause catches returns as well. -/
theorem returns_rest_iff {x : Eff (World τ) Exn Unit} :
    Returns (tryCatch x (jniClauses (pure ()))) w ↔ Contained (x w).2 := by
  rcases hx : x w with ⟨t, a | e | _ | _⟩
  · exact iff_of_true ⟨t, a, tryCatch_ok hx⟩ (contained_ok a)
  · rw [Returns, tryCatch_thrown hx]
    obtain ⟨j, hj, hno⟩ | ⟨type, rfl, hj⟩ := handle_jniClauses (τ := τ) (pure ()) e
    · rw [hj]
      exact iff_of_true ⟨_, (), rfl⟩ (.inr ⟨e, rfl, hno⟩)
    · rw [hj]
      exact iff_of_false (by rintro ⟨_, _, ⟨⟩⟩) (by rintro (⟨_, ⟨⟩⟩ | ⟨_, ⟨⟩, hno⟩); exact hno type rfl)
  · rw [Returns, tryCatch_terminated hx]
    exact iff_of_false (by rintro ⟨_, _, ⟨⟩⟩) (by rintro (⟨_, ⟨⟩⟩ | ⟨_, ⟨⟩, -⟩))
  · rw [Returns, tryCatch_undefined hx]
    exact iff_of_false (by rintro ⟨_, _, ⟨⟩⟩) (by rintro (⟨_, ⟨⟩⟩ | ⟨_, ⟨⟩, -⟩))

end Clauses

/-! ## The native methods -/

section Native

variable {τ : Type} {P : Primitives τ} {w : World τ} {obj : ℕ} {below : Below}

theorem returns_held_iff {β : Type} {default : β} {method : ParserImpl (World τ) → Eff (World τ) Exn β} {held : Bool} :
    Returns (selfAbi parserId (heldParser below held) >>= fun impl => abiCallOut (onThread P) default (method impl)) w ↔
      held = true ∧ Swallowed (method (parserImpl below) w).2 := by
  rw [returns_adapter_iff, heldParser]
  cases held with
  | true => simp
  | false => simp

/-- No licence, or a check that passes, or one that fails with an exception that the clause catches. -/
def License.Caught (license : Option License) : Prop :=
  ∀ l ∈ license, ∀ e, l.checkLastLicenseError = some e → ∃ ex, e = .abi ex

/-- What a native method asks for in the state it is called in, for it to return. -/
def EntryCall.NativeOk (w : World τ) : EntryCall → Prop
  | api _ => True
  | jniInit _ made => made = none
  | jniRelease _ => True
  | jniCreateInstance obj below _ _ => w.mObject obj = true ∧ Swallowed (pluginManagerCall below.createAlgoInstance w).2
  | jniExecute obj below license _ strParam imgDataArray outputDataArray =>
    License.Caught license ∧
      ((∃ l ∈ license, l.checkLastLicenseError ≠ none) ∨ w.mObject obj = true ∧
        Swallowed (executeConcret below (strParam.getD "") (.ofJByteArray imgDataArray) (.ofJByteArray outputDataArray) w).2)
  | jniReleaseInstance obj below _ =>
    w.mObject obj = true ∧ Swallowed (pluginManagerCall below.releaseAlgoInstance w).2
  | jniInitPlugin obj below license _ =>
    (∀ l ∈ license, l.initLicenseSystem = none) ∧ License.Caught license ∧
      (w.mObject obj = true → Contained (initConcret below w).2)

theorem License.caught_some {initLicenseSystem : Option Exn} {e : Exn} :
    License.Caught (some ⟨initLicenseSystem, some e⟩) ↔ ∃ ex, e = .abi ex := by
  simp [License.Caught]

/-- The licence check of `initPlugin`: where it comes to a value, the variables and the field are as before. -/
theorem jniInitLicense_cases (license : Option License) :
    (((∀ l ∈ license, l.initLicenseSystem = none) ∧ License.Caught license) ∧
      ∃ w', jniInitLicense license w = (w', .ok ()) ∧ w'.mObject = w.mObject ∧ w'.vars = w.vars) ∨
    (¬ ((∀ l ∈ license, l.initLicenseSystem = none) ∧ License.Caught license) ∧
      ∃ e, jniInitLicense license w = (w, .thrown e)) := by
  rcases license with _ | ⟨_ | e, check⟩
  · exact .inl ⟨⟨nofun, nofun⟩, w, rfl, rfl, rfl⟩
  · have hnone : ∀ l ∈ some (⟨none, check⟩ : License), l.initLicenseSystem = none := by
      rintro _ ⟨⟩
      rfl
    rcases check with _ | e
    · refine .inl ⟨⟨hnone, ?_⟩, w, rfl, rfl, rfl⟩
      rintro _ ⟨⟩ _ ⟨⟩
    · rw [License.caught_some]
      cases e with
      | abi ex => exact .inl ⟨⟨hnone, ex, rfl⟩, _, rfl, rfl, rfl⟩
      | parser c what => exact .inr ⟨by simp, _, rfl⟩
      | foreign type => exact .inr ⟨by simp, _, rfl⟩
      | std c what => exact .inr ⟨by simp, _, rfl⟩
  · exact .inr ⟨by simp, e, rfl⟩

/-- The licence check of `execute` passes, or reports its exception and asks for null, or throws. -/
theorem jniExecuteLicense_cases (license : Option License) :
    ((∀ l ∈ license, l.checkLastLicenseError = none) ∧ jniExecuteLicense license w = (w, .ok true)) ∨
    ((∃ l ∈ license, l.checkLastLicenseError ≠ none) ∧ License.Caught license ∧
      ∃ w', jniExecuteLicense license w = (w', .ok false)) ∨
    (¬ License.Caught license ∧ ∃ e, jniExecuteLicense license w = (w, .thrown e)) := by
  rcases license with _ | ⟨initLicenseSystem, _ | e⟩
  · exact .inl ⟨nofun, rfl⟩
  · exact .inl ⟨by simp, rfl⟩
  · rw [License.caught_some]
    cases e with
    | abi ex => exact .inr (.inl ⟨by simp, ⟨ex, rfl⟩, _, rfl⟩)
    | parser c what => exact .inr (.inr ⟨by simp, _, rfl⟩)
    | foreign type => exact .inr (.inr ⟨by simp, _, rfl⟩)
    | std c what => exact .inr (.inr ⟨by simp, _, rfl⟩)

/-- What a call comes to does not depend on what the answer is made of. -/
theorem answers_iff {α : Type} {x : Eff (World τ) Exn α} {f : α → Answer} :
    (∃ answer, ((x >>= fun a => pure (f a)) w).2 = .ok answer) ↔ Returns x w := by
  refine Iff.trans ?_ (returns_bind_pure (f := f))
  constructor
  · rintro ⟨answer, h⟩
    exact ⟨_, answer, Prod.ext rfl h⟩
  · rintro ⟨t, answer, h⟩
    exact ⟨answer, by rw [h]⟩

/-- **A native method returns exactly when** it is `NativeOk`. -/
theorem native_returns_iff {c : EntryCall} (hc : c.isApi = false) :
    (∃ answer, (c.run P w).2 = .ok answer) ↔ c.NativeOk w := by
  cases c with
  | api c => cases hc
  | jniInit obj made =>
    refine answers_iff.trans ?_
    cases made with
    | none => exact iff_of_true ⟨_, (), rfl⟩ rfl
    | some e => exact iff_of_false (not_returns_thrown (t := w) rfl) (Option.some_ne_none e)
  | jniRelease obj => exact answers_iff.trans (iff_of_true ⟨_, (), rfl⟩ trivial)
  | jniCreateInstance obj below qualifiedName strParam =>
    refine answers_iff.trans (returns_fallOff_iff.trans (returns_bind_pure.trans ?_))
    exact returns_held_iff
  | jniReleaseInstance obj below instanceId =>
    refine answers_iff.trans ?_
    exact returns_held_iff
  | jniExecute obj below license instanceId strParam imgDataArray outputDataArray =>
    refine answers_iff.trans ?_
    rw [EntryCall.NativeOk]
    obtain ⟨hpass, hl⟩ | ⟨hfail, hcaught, w', hl⟩ | ⟨hno, e, hl⟩ := jniExecuteLicense_cases (w := w) license
    · have hcaught : License.Caught license := fun l hmem e he => by
        rw [hpass l hmem] at he
        cases he
      have hnot : ¬ ∃ l ∈ license, l.checkLastLicenseError ≠ none := by
        rintro ⟨l, hmem, hne⟩
        exact hne (hpass l hmem)
      refine (returns_bind_of_ok hl).trans ?_
      refine (returns_fallOff_iff.trans (returns_bind_pure.trans returns_held_iff)).trans ?_
      exact ⟨fun h => ⟨hcaught, .inr h⟩, fun h => h.2.resolve_left hnot⟩
    · exact iff_of_true ((returns_bind_of_ok hl).2 ⟨w', none, rfl⟩) ⟨hcaught, .inl hfail⟩
    · exact iff_of_false (not_returns_bind_of_thrown hl) fun h => hno h.1
  | jniInitPlugin obj below license configFilePath =>
    refine answers_iff.trans ?_
    rw [EntryCall.NativeOk]
    obtain ⟨hok, w', hl, hobj, hvars⟩ | ⟨hno, e, hl⟩ := jniInitLicense_cases (w := w) license
    · have hinit : (initConcret below w').2 = (initConcret below w).2 := by
        rw [initConcret, initConcret, hvars]
      rw [← and_assoc, and_iff_right hok]
      refine (returns_bind_of_ok hl).trans (returns_rest_iff.trans ?_)
      rw [jniAdapter, adapter, hobj]
      cases hheld : w.mObject obj with
      | true => exact contained_abiCallOut_iff.trans (by rw [← hinit]; simp [parserImpl])
      | false => exact iff_of_true (contained_abi _) fun hheld => Bool.noConfusion hheld
    · exact iff_of_false (not_returns_bind_of_thrown hl) fun h => hno ⟨h.1, h.2.1⟩

end Native

/-! ## Runs -/

/-- **In every order of calls of both APIs** a native method returns to Java exactly when it is `NativeOk` in the state it
is called in. -/
theorem jni_returns {τ : Type} (P : Primitives τ) (thread : τ) : ∀ t s, (entryMachine P thread).run t = some s →
    ∀ r ∈ s.records, r.call.isApi = false → ((∃ answer, r.outcome = .ok answer) ↔ r.call.NativeOk r.before) := by
  intro t s h r hmem hc
  have hr := callMachine_records t s h r hmem
  have ho : r.outcome = (r.call.run P r.before).2 := by
    conv_lhs => rw [hr]
    rfl
  rw [ho]
  exact native_returns_iff hc

/-- An instance is created, and after the release of its parser another one. -/
def releasedSession : List EntryCall :=
  [.jniInit 0 none, .jniInitPlugin 0 .succeeding none (some "config.json"),
   .jniCreateInstance 0 .succeeding (some "algo") none, .jniRelease 0,
   .jniCreateInstance 0 .succeeding (some "algo") none]

/-- The second does not return: the exception of the null handle is reported, and the function has no value behind it. -/
theorem releasedSession_returns :
    ∃ s, (entryMachine Primitives.slot none).run releasedSession = some s ∧ ∃ r₁ r₂ before after,
      s.records = before ++ r₁ :: after ++ [r₂] ∧ r₁.call = r₂.call ∧
      (∃ answer, r₁.outcome = .ok answer) ∧ ¬ ∃ answer, r₂.outcome = .ok answer := by
  have hrun : (entryMachine Primitives.slot none).run releasedSession = some _ := rfl
  have h := jni_returns Primitives.slot none releasedSession _ hrun
  refine ⟨_, hrun, _, _, [_, _], [_], rfl, rfl, (h _ (by simp) rfl).2 ⟨rfl, .inl ⟨_, rfl⟩⟩, fun hok => ?_⟩
  have hheld := ((h _ (by simp) rfl).1 hok).1
  cases hheld

end Nessus.Parser
