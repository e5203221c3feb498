import Nessus.Lib.Count
import Nessus.Parser.Init

/-!
# The body of `init_plugin` completes once

* `InitInv` — where the flag, `ready`, `plugin_manager_` and the calls stand to each other; every step keeps it (`step_inv`);
* `initMachine_once` — the guarantees of `init_plugin` in every interleaving of calls;
* `initMachine_runs` — a call that is alone does what `initPlugin` says.
-/

namespace Nessus.Parser

open Nessus.Lib Nessus.Abi

/-! ## What one step can do -/

/-- The step assigns `plugin_manager_`. -/
def InitLabel.assigns : InitLabel → Bool
  | assign _ (.ok _) => true
  | _ => false

def InitLabel.leaves : InitLabel → Bool
  | leave _ => true
  | _ => false

/-- The call that makes the step. -/
def InitLabel.call? : InitLabel → Option ℕ
  | call _ => none
  | enter c => some c
  | skip c => some c
  | read c _ => some c
  | load c _ => some c
  | assign c _ => some c
  | setReady c => some c
  | leave c => some c
  | check c => some c

/-- In the body, with nothing assigned yet. -/
def Phase.early : Phase → Bool
  | reading _ => true
  | loading _ => true
  | _ => false

/-- The steps, with the phases their call is in. -/
inductive InitSteps (s : InitState) : InitLabel → InitState → Prop where
  | call {path : String} : InitSteps s (.call path) { s with calls := s.calls ++ [.called path] }
  | enter {c : ℕ} {path : String} (hc : s.calls[c]? = some (.called path)) (hf : s.flag = .unset) :
      InitSteps s (.enter c) (s.move c { s.toInitVars with flag := .running c } (.reading path))
  | skip {c : ℕ} {path : String} (hc : s.calls[c]? = some (.called path)) (hf : s.flag = .done) :
      InitSteps s (.skip c) (s.move c s.toInitVars .after)
  | goOn {l : InitLabel} {c : ℕ} {p : Phase} {items : List Json} (ha : l.assigns = false) (hl : l.leaves = false)
      (hc : s.calls[c]? = some p) (hp : p.early = true) : InitSteps s l (s.move c s.toInitVars (.loading items))
  | fail {l : InitLabel} {c : ℕ} {p : Phase} {e : Exn} {ready : Bool} (ha : l.assigns = false) (hl : l.leaves = false)
      (hc : s.calls[c]? = some p) (hp : p.early = true) (hr : ready = true → s.ready = true) :
      InitSteps s l (s.move c { s.toInitVars with ready := ready, flag := .unset } (.thrown e))
  | assign {c pm : ℕ} (hc : s.calls[c]? = some (.loading [])) :
      InitSteps s (.assign c (.ok pm)) (s.move c { s.toInitVars with pluginManager := some pm } .assigned)
  | setReady {c : ℕ} (hc : s.calls[c]? = some .assigned) :
      InitSteps s (.setReady c) (s.move c { s.toInitVars with ready := true } .readied)
  | leave {c : ℕ} (hc : s.calls[c]? = some .readied) :
      InitSteps s (.leave c) (s.move c { s.toInitVars with flag := .done } .after)
  | check {c : ℕ} (hc : s.calls[c]? = some .after) (hr : s.ready = true) :
      InitSteps s (.check c) (s.move c s.toInitVars .returned)
  | checkFails {c : ℕ} {e : Exn} (hc : s.calls[c]? = some .after) (hr : s.ready = false) :
      InitSteps s (.check c) (s.move c s.toInitVars (.thrownNotReady e))

section Cases

variable {s s' : InitState} {c : ℕ} {p : Phase}

theorem pluginList_vars (r : ReadConfig) (v : InitVars) : (pluginList r v).1 = v := by
  rcases r with e | (_ | config) <;> rfl

/-- Loading a module changes no variable, except that `ready` is reset where the module fails to load. -/
theorem loadModule_cases (item : Json) (r : Except Exn Bool) (v : InitVars) :
    loadModule item r v = (v, .ok ()) ∨ (∃ e, loadModule item r v = (v, .thrown e)) ∨
      loadModule item r v = ({ v with ready := false }, .thrown loadModuleFailed) := by
  unfold loadModule
  rcases item.asString_plain with ⟨name, hn⟩ | ⟨e, he, -⟩
  · rw [hn]
    rcases r with e | (_ | _)
    · exact .inr (.inl ⟨e, rfl⟩)
    · exact .inr (.inr rfl)
    · exact .inl rfl
  · rw [he]
    exact .inr (.inl ⟨e, rfl⟩)

theorem initStep_cases {l : InitLabel} (h : initStep s l = some s') : InitSteps s l s' := by
  cases l with
  | call path => cases h; exact .call
  | enter c =>
    simp only [initStep] at h
    split at h
    · next hc hf => cases h; exact .enter hc hf
    · cases h
  | skip c =>
    simp only [initStep] at h
    split at h
    · next hc hf => cases h; exact .skip hc hf
    · cases h
  | read c r =>
    simp only [initStep] at h
    split at h
    · next hc =>
      have hv := pluginList_vars r s.toInitVars
      unfold InitState.body at h
      split at h
      · next v items hb => rw [hb] at hv; cases hv; cases h; exact .goOn rfl rfl hc rfl
      · next v e hb => rw [hb] at hv; cases hv; cases h; exact .fail rfl rfl hc rfl id
      · cases h
    · cases h
  | load c r =>
    simp only [initStep] at h
    split at h
    · next item items hc =>
      unfold InitState.body at h
      rcases loadModule_cases item r s.toInitVars with hb | ⟨e, hb⟩ | hb <;> rw [hb] at h <;> cases h
      · exact .goOn rfl rfl hc rfl
      · exact .fail rfl rfl hc rfl id
      · exact .fail rfl rfl hc rfl (fun hr => Bool.noConfusion hr)
    · cases h
  | assign c r =>
    simp only [initStep] at h
    split at h
    · next hc =>
      cases r with
      | error e => cases h; exact .fail rfl rfl hc rfl id
      | ok pm => cases h; exact .assign hc
    · cases h
  | setReady c =>
    simp only [initStep] at h
    split at h
    · next hc => cases h; exact .setReady hc
    · cases h
  | leave c =>
    simp only [initStep] at h
    split at h
    · next hc => cases h; exact .leave hc
    · cases h
  | check c =>
    simp only [initStep, checkReady] at h
    split at h
    · next hc =>
      cases hr : s.ready
      · simp only [hr, Bool.false_eq_true, if_false] at h
        cases h
        exact .checkFails hc hr
      · simp only [hr, if_true] at h
        cases h
        exact .check hc hr
    · cases h

end Cases

/-! ## The invariant -/

/-- What call `c` in this phase says of the variables. -/
def Phase.Asks (c : ℕ) (v : InitVars) : Phase → Prop
  | called _ => True
  | reading _ => v.flag = .running c ∧ v.ready = false ∧ v.pluginManager = none
  | loading _ => v.flag = .running c ∧ v.ready = false ∧ v.pluginManager = none
  | assigned => v.flag = .running c ∧ v.ready = false ∧ v.pluginManager.isSome = true
  | readied => v.flag = .running c ∧ v.ready = true ∧ v.pluginManager.isSome = true
  | after => v.flag = .done
  | returned => v.flag = .done
  | thrown _ => True
  | thrownNotReady _ => False

/-- Every call is where the variables allow it, and the variables are set when the flag says so. -/
structure InitInv (s : InitState) : Prop where
  calls : ∀ (c : ℕ) (p : Phase), s.calls[c]? = some p → p.Asks c s.toInitVars
  unset : s.flag = .unset → s.ready = false ∧ s.pluginManager = none
  done : s.flag = .done → s.ready = true ∧ s.pluginManager.isSome = true
  running : ∀ c, s.flag = .running c → ∃ p, s.calls[c]? = some p ∧ p.inBody = true

section Invariant

variable {s s' : InitState} {c : ℕ} {p : Phase} {v : InitVars}

theorem inv_start : InitInv .start where
  calls c p h := by simp [InitState.start] at h
  unset _ := ⟨rfl, rfl⟩
  done h := by cases h
  running c h := by cases h

/-- A call that does not hold the flag, while it is not set, says nothing of the variables. -/
theorem Phase.Asks.of_other {c' : ℕ} (h : p.Asks c' v) (hf : v.flag = .unset ∨ v.flag = .running c) (hne : c ≠ c')
    (v' : InitVars) : p.Asks c' v' := by
  cases p with
  | called path => trivial
  | thrown e => trivial
  | thrownNotReady e => exact h
  | after => rcases hf with hf | hf <;> exact OnceFlag.noConfusion (hf.symm.trans h)
  | returned => rcases hf with hf | hf <;> exact OnceFlag.noConfusion (hf.symm.trans h)
  | _ =>
    rcases hf with hf | hf
    · exact OnceFlag.noConfusion (hf.symm.trans h.1)
    · exact absurd (OnceFlag.running.inj (hf.symm.trans h.1)) hne

theorem Phase.Asks.of_early (h : p.Asks c v) (hp : p.early = true) :
    v.flag = .running c ∧ v.ready = false ∧ v.pluginManager = none := by
  cases p <;> first | exact h | cases hp

theorem InitState.move_calls (h : s.calls[c]? = some p) (v : InitVars) (p' : Phase) (c' : ℕ) :
    (s.move c v p').calls[c']? = if c = c' then some p' else s.calls[c']? := by
  have hc : c < s.calls.length := (List.getElem?_eq_some_iff.1 h).1
  simp only [InitState.move, List.getElem?_set, hc, if_true]

/-- The call that holds the flag, or takes it, changes the variables. -/
theorem InitInv.move (hi : InitInv s) (hf : s.flag = .unset ∨ s.flag = .running c) (h : s.calls[c]? = some p) {p' : Phase}
    (hp : p'.Asks c v) (unset : v.flag = .unset → v.ready = false ∧ v.pluginManager = none)
    (done : v.flag = .done → v.ready = true ∧ v.pluginManager.isSome = true)
    (running : ∀ c', v.flag = .running c' → c' = c ∧ p'.inBody = true) : InitInv (s.move c v p') where
  calls c' q hq := by
    rw [InitState.move_calls h] at hq
    split at hq
    · next hc => subst hc; cases hq; exact hp
    · next hc => exact (hi.calls c' q hq).of_other hf hc v
  unset := unset
  done := done
  running c' hc := by
    obtain ⟨rfl, hb⟩ := running c' hc
    exact ⟨p', by rw [InitState.move_calls h, if_pos rfl], hb⟩

/-- A call outside the body moves on, and changes no variable. -/
theorem InitInv.move_outside (hi : InitInv s) (h : s.calls[c]? = some p) (ho : p.inBody = false) {p' : Phase}
    (hp : p'.Asks c s.toInitVars) : InitInv (s.move c s.toInitVars p') where
  calls c' q hq := by
    rw [InitState.move_calls h] at hq
    split at hq
    · next hc => subst hc; cases hq; exact hp
    · exact hi.calls c' q hq
  unset := hi.unset
  done := hi.done
  running c' hc := by
    obtain ⟨q, hq, hb⟩ := hi.running c' hc
    refine ⟨q, ?_, hb⟩
    rw [InitState.move_calls h, if_neg, hq]
    rintro rfl
    rw [h, Option.some_inj] at hq
    rw [hq, hb] at ho
    cases ho

theorem inv_call (hi : InitInv s) (path : String) : InitInv { s with calls := s.calls ++ [.called path] } where
  calls c p h := by
    rw [List.getElem?_append] at h
    split at h
    · exact hi.calls c p h
    · obtain rfl : p = .called path := by simpa using List.mem_of_getElem? h
      trivial
  unset := hi.unset
  done := hi.done
  running c hc := by
    obtain ⟨p, hp, hb⟩ := hi.running c hc
    refine ⟨p, ?_, hb⟩
    rw [List.getElem?_append_left (List.getElem?_eq_some_iff.1 hp).1, hp]

/-- **Every step keeps the invariant.** -/
theorem step_inv {l : InitLabel} (hi : InitInv s) (h : initStep s l = some s') : InitInv s' := by
  cases initStep_cases h with
  | call => exact inv_call hi _
  | @enter c path hc hf =>
    obtain ⟨hr, hp⟩ := hi.unset hf
    exact hi.move (.inl hf) hc ⟨rfl, hr, hp⟩ nofun nofun fun c' h => ⟨(OnceFlag.running.inj h).symm, rfl⟩
  | skip hc hf => exact hi.move_outside hc rfl hf
  | @goOn _ c p items ha hl hc hp =>
    have hv := (hi.calls c p hc).of_early hp
    refine hi.move (.inr hv.1) hc hv hi.unset hi.done fun c' h => ⟨?_, rfl⟩
    exact OnceFlag.running.inj (h.symm.trans hv.1)
  | @fail _ c p e ready ha hl hc hp hr =>
    obtain ⟨hf, hready, hpm⟩ := (hi.calls c p hc).of_early hp
    obtain rfl : ready = false := by
      cases ready
      · rfl
      · exact (hr rfl).symm.trans hready
    exact hi.move (.inr hf) hc trivial (fun _ => ⟨rfl, hpm⟩) nofun nofun
  | @assign c pm hc =>
    obtain ⟨hf, hready, -⟩ := hi.calls c _ hc
    refine hi.move (.inr hf) hc ⟨hf, hready, rfl⟩ (fun h => ?_) (fun h => ?_) fun c' h => ⟨?_, rfl⟩
    · exact OnceFlag.noConfusion (h.symm.trans hf)
    · exact OnceFlag.noConfusion (h.symm.trans hf)
    · exact OnceFlag.running.inj (h.symm.trans hf)
  | @setReady c hc =>
    obtain ⟨hf, -, hpm⟩ := hi.calls c _ hc
    refine hi.move (.inr hf) hc ⟨hf, rfl, hpm⟩ (fun h => ?_) (fun h => ?_) fun c' h => ⟨?_, rfl⟩
    · exact OnceFlag.noConfusion (h.symm.trans hf)
    · exact OnceFlag.noConfusion (h.symm.trans hf)
    · exact OnceFlag.running.inj (h.symm.trans hf)
  | @leave c hc =>
    obtain ⟨hf, hready, hpm⟩ := hi.calls c _ hc
    exact hi.move (.inr hf) hc rfl nofun (fun _ => ⟨hready, hpm⟩) nofun
  | @check c hc hr => exact hi.move_outside hc rfl (hi.calls c .after hc :)
  | @checkFails c e hc hr =>
    have hready := (hi.done (hi.calls c _ hc)).1
    exact Bool.noConfusion (hr.symm.trans hready)

theorem step_ready {l : InitLabel} (hi : InitInv s) (h : initStep s l = some s') (hr : s.ready = true) :
    s'.ready = true := by
  cases initStep_cases h with
  | @fail _ c p e ready ha hl hc hp => exact absurd hr (by simp [((hi.calls c p hc).of_early hp).2.1])
  | setReady => rfl
  | _ => exact hr

theorem step_pluginManager {l : InitLabel} {pm : ℕ} (hi : InitInv s) (h : initStep s l = some s')
    (hp : s.pluginManager = some pm) : s'.pluginManager = some pm := by
  cases initStep_cases h with
  | @assign c pm' hc => exact absurd hp (by simp [(hi.calls c _ hc).2.2])
  | _ => exact hp

end Invariant

/-! ## The guarantees of a run -/

/-- The invariant, and how often `plugin_manager_` has been assigned and the body completed. -/
structure InitCounted (t : List InitLabel) (s : InitState) : Prop where
  inv : InitInv s
  assigns : t.countP InitLabel.assigns = if s.pluginManager.isSome = true then 1 else 0
  leaves : t.countP InitLabel.leaves = if s.flag = .done then 1 else 0

theorem step_counted {t : List InitLabel} {s s' : InitState} {l : InitLabel} (h : InitCounted t s)
    (hs : initStep s l = some s') : InitCounted (t ++ [l]) s' := by
  refine ⟨step_inv h.inv hs, ?_, ?_⟩
  · rw [countP_concat, h.assigns]
    cases initStep_cases hs with
    | goOn ha => rw [ha]; rfl
    | fail ha => rw [ha]; rfl
    | @assign c pm hc => rw [(h.inv.calls c _ hc).2.2]; rfl
    | _ => rfl
  · rw [countP_concat, h.leaves]
    cases initStep_cases hs with
    | enter hc hf => rw [hf]; rfl
    | goOn ha hl => rw [hl]; rfl
    | @fail _ c p e ready ha hl hc hp => rw [hl, ((h.inv.calls c p hc).of_early hp).1]; rfl
    | @leave c hc => rw [(h.inv.calls c _ hc).1]; rfl
    | _ => rfl

theorem initMachine_counted : ∀ t s, initMachine.run t = some s → InitCounted t s :=
  Machine.invariant ⟨inv_start, rfl, rfl⟩ fun _ _ _ _ _ h hs => step_counted h hs

/-- The step from `s` to `s'` is where call `c` fails. -/
def Fails (c : ℕ) (e : Exn) (s s' : InitState) : Prop :=
  s.calls[c]? ≠ some (.thrown e) ∧ s'.calls[c]? = some (.thrown e)

/-- The guarantees of `init_plugin` in a run. -/
structure InitOnce (t : List InitLabel) (s : InitState) : Prop where
  assignedOnce : t.countP InitLabel.assigns ≤ 1
  readyKept : ∀ t₁ t₂ s₁, t = t₁ ++ t₂ → initMachine.run t₁ = some s₁ → s₁.ready = true → s.ready = true
  readyAssigned : s.ready = true → s.pluginManager.isSome = true
  returnedReady : ∀ c : ℕ, s.calls[c]? = some .returned → s.ready = true
  checkPasses : ∀ (c : ℕ) (e : Exn), s.calls[c]? ≠ some (.thrownNotReady e)
  /-- A call that fails leaves `ready` and `plugin_manager_` as they were at any moment before, and the flag unset. -/
  failed : ∀ t₁ l s₁ c e, t = t₁ ++ [l] → initMachine.run t₁ = some s₁ → Fails c e s₁ s →
    s.flag = .unset ∧ ∀ t₀ u s₀, t₁ = t₀ ++ u → initMachine.run t₀ = some s₀ →
      s.ready = s₀.ready ∧ s.pluginManager = s₀.pluginManager
  /-- While the flag is unset, a call runs the body. -/
  retried : ∀ (c : ℕ) (path : String), s.flag = .unset → s.calls[c]? = some (.called path) →
    initStep s (.skip c) = none ∧ ∃ s', initStep s (.enter c) = some s' ∧ s'.calls[c]? = some (.reading path)
  /-- It is not set again before a body has completed. -/
  completed : ∀ t₁ t₂ s₁, t = t₁ ++ t₂ → initMachine.run t₁ = some s₁ → s₁.flag = .unset → s.flag = .done →
    ∃ c, .leave c ∈ t₂

section Run

variable {t t₁ t₂ : List InitLabel} {s s₁ s₂ : InitState}

theorem ready_kept (h₁ : initMachine.run t₁ = some s₁) (hr : s₁.ready = true)
    (h : initMachine.run (t₁ ++ t₂) = some s) : s.ready = true :=
  Machine.run_kept (P := fun s => s.ready = true)
    (fun t _ _ _ ht hp hs => step_ready (initMachine_counted t _ ht).inv hs hp) t₁ t₂ s₁ s h₁ hr h

theorem pluginManager_kept {pm : ℕ} (h₁ : initMachine.run t₁ = some s₁) (hp : s₁.pluginManager = some pm)
    (h : initMachine.run (t₁ ++ t₂) = some s) : s.pluginManager = some pm :=
  Machine.run_kept (P := fun s => s.pluginManager = some pm)
    (fun t _ _ _ ht hp hs => step_pluginManager (initMachine_counted t _ ht).inv hs hp) t₁ t₂ s₁ s h₁ hp h

/-- A call fails in the body, before anything is assigned. -/
theorem Fails.cases {l : InitLabel} {c : ℕ} {e : Exn} (hf : Fails c e s₁ s) (hi : InitInv s₁)
    (h : initStep s₁ l = some s) : s.flag = .unset ∧ s.ready = false ∧ s.pluginManager = none := by
  have hi' := step_inv hi h
  suffices hu : s.flag = .unset from ⟨hu, hi'.unset hu⟩
  obtain ⟨hno, hyes⟩ := hf
  have hmove {c' : ℕ} {p p' : Phase} {v : InitVars} (hc : s₁.calls[c']? = some p)
      (h : (s₁.move c' v p').calls[c]? = some (.thrown e)) (hp : p' ≠ .thrown e) : False := by
    rw [InitState.move_calls hc] at h
    split at h
    · exact hp (Option.some.inj h)
    · exact hno h
  cases initStep_cases h with
  | call =>
    rw [List.getElem?_append] at hyes
    split at hyes
    · exact absurd hyes hno
    · simpa using List.mem_of_getElem? hyes
  | fail => rfl
  | enter hc => exact (hmove hc hyes nofun).elim
  | skip hc => exact (hmove hc hyes nofun).elim
  | goOn _ _ hc => exact (hmove hc hyes nofun).elim
  | assign hc => exact (hmove hc hyes nofun).elim
  | setReady hc => exact (hmove hc hyes nofun).elim
  | leave hc => exact (hmove hc hyes nofun).elim
  | check hc => exact (hmove hc hyes nofun).elim
  | checkFails hc => exact (hmove hc hyes nofun).elim

end Run

/-- **`init_plugin` is done once**, in every interleaving of any calls with any configurations. -/
theorem initMachine_once (t : List InitLabel) (s : InitState) (hrun : initMachine.run t = some s) : InitOnce t s := by
  have h := initMachine_counted t s hrun
  constructor
  · rw [h.assigns]
    split <;> omega
  · rintro t₁ t₂ s₁ rfl h₁ hr
    exact ready_kept h₁ hr hrun
  · intro hr
    cases hf : s.flag with
    | unset => exact Bool.noConfusion (hr.symm.trans (h.inv.unset hf).1)
    | done => exact (h.inv.done hf).2
    | running c =>
      obtain ⟨p, hp, hb⟩ := h.inv.running c hf
      have ha := h.inv.calls c p hp
      cases p with
      | reading path => exact Bool.noConfusion (hr.symm.trans ha.2.1)
      | loading items => exact Bool.noConfusion (hr.symm.trans ha.2.1)
      | assigned => exact ha.2.2
      | readied => exact ha.2.2
      | _ => cases hb
  · intro c hc
    exact (h.inv.done (h.inv.calls c _ hc)).1
  · intro c e hc
    exact h.inv.calls c _ hc
  · rintro t₁ l s₁ c e rfl h₁ hfail
    obtain ⟨s₁', h₁', hs⟩ := initMachine.run_concat_eq_some.1 hrun
    obtain rfl : s₁ = s₁' := Option.some.inj (h₁.symm.trans h₁')
    obtain ⟨hu, hr, hp⟩ := hfail.cases (initMachine_counted t₁ s₁ h₁).inv hs
    refine ⟨hu, ?_⟩
    rintro t₀ u s₀ rfl h₀
    rw [List.append_assoc] at hrun
    constructor
    · cases hr₀ : s₀.ready
      · exact hr
      · exact ready_kept h₀ hr₀ hrun
    · cases hp₀ : s₀.pluginManager with
      | none => exact hp
      | some pm => exact pluginManager_kept h₀ hp₀ hrun
  · intro c path hf hc
    refine ⟨by simp [initStep, hc, hf], _, by simp [initStep, hc, hf]; rfl, ?_⟩
    rw [InitState.move_calls hc, if_pos rfl]
  · rintro t₁ t₂ s₁ rfl h₁ hu hd
    have h₁ := (initMachine_counted t₁ s₁ h₁).leaves
    have h₂ := h.leaves
    rw [List.countP_append, h₁, hu, hd] at h₂
    have hpos : 0 < t₂.countP InitLabel.leaves := by simp at h₂; omega
    obtain ⟨l, hl, hp⟩ := List.countP_pos_iff.1 hpos
    cases l with
    | leave c => exact ⟨c, hl⟩
    | _ => cases hp

/-- A call fails on its configuration; another one, with another configuration, succeeds. -/
def retry : List InitLabel :=
  [.call "a.json", .enter 0, .read 0 (.ok none), .call "b.json", .enter 1,
    .read 1 (.ok (some (.object [("plugin_list", .array [.string "classic"])]))), .load 1 (.ok true),
    .assign 1 (.ok 7), .setReady 1, .leave 1, .check 1]

theorem retry_once : ∃ s, initMachine.run retry = some s ∧ InitOnce retry s := by
  have hrun : (initMachine.run retry).isSome := by decide
  obtain ⟨s, hs⟩ := Option.isSome_iff_exists.1 hrun
  exact ⟨s, hs, initMachine_once retry s hs⟩

/-! ## A call that is alone -/

section Alone

variable {α β : Type} {s s' : InitState} {c : ℕ} {p : Phase}

/-- The steps of call `c`. -/
def Alone (c : ℕ) (s s' : InitState) : Prop := initMachine.Reaches (fun l => l.call? = some c) s s'

/-- It ends with a value or an exception. -/
def Ends (x : Body α) : Prop := ∀ v, (∃ v' a, x v = (v', .ok a)) ∨ ∃ v' e, x v = (v', .thrown e)

theorem Ends.bind {x : Body α} {f : α → Body β} (hx : Ends x) (hf : ∀ a, Ends (f a)) : Ends (x >>= f) := by
  intro v
  rcases hx v with ⟨v', a, h⟩ | ⟨v', e, h⟩
  · rw [Eff.bind_of_ok h]
    exact hf a v'
  · exact .inr ⟨v', e, Eff.bind_of_thrown h f⟩

theorem Ends.lift {x : Outcome Exn α} (h : Plain x) : Ends (Body.lift x) := by
  intro v
  rcases h with ⟨a, rfl⟩ | ⟨e, rfl, -⟩
  · exact .inl ⟨v, a, rfl⟩
  · exact .inr ⟨v, e, rfl⟩

theorem pluginList_ends (r : ReadConfig) : Ends (pluginList r) := by
  rcases r with e | (_ | config)
  · exact fun v => .inr ⟨v, e, rfl⟩
  · exact .lift (.inr ⟨_, rfl, rfl⟩)
  · refine .lift (x := config.resolveReference "plugin_list" >>= _) ?_
    rcases config.resolveReference_plain "plugin_list" with ⟨list, h⟩ | ⟨e, h, he⟩
    · exact .inl ⟨list.elements, by rw [h]; rfl⟩
    · exact .inr ⟨e, by rw [h]; rfl, he⟩

theorem loadModules_ends (items : List Json) (rs : List (Except Exn Bool)) : Ends (loadModules items rs) := by
  induction items generalizing rs with
  | nil => exact fun v => .inl ⟨v, (), rfl⟩
  | cons item items ih =>
    refine Ends.bind (fun v => ?_) fun _ => ih rs.tail
    rcases loadModule_cases item (rs.headD (.ok false)) v with h | ⟨e, h⟩ | h
    · exact .inl ⟨_, _, h⟩
    · exact .inr ⟨_, _, h⟩
    · exact .inr ⟨_, _, h⟩

theorem initBody_ends (env : InitEnv) : Ends (initBody env) := by
  refine Ends.bind (pluginList_ends _) fun items => Ends.bind (loadModules_ends items _) fun _ =>
    Ends.bind (fun v => ?_) fun _ v => .inl ⟨_, (), rfl⟩
  rcases env.makePluginManager with e | pm
  · exact .inr ⟨v, e, rfl⟩
  · exact .inl ⟨_, (), rfl⟩

theorem InitState.move_move (v v' : InitVars) (p p' : Phase) : (s.move c v p).move c v' p' = s.move c v' p' := by
  simp [InitState.move, List.set_set]

theorem InitState.body_of_ok {x : Body α} {q : α → Phase} {v : InitVars} {a : α} (h : x s.toInitVars = (v, .ok a)) :
    s.body c x q = some (s.move c v (q a)) := by
  simp only [InitState.body, h]

theorem InitState.body_of_thrown {x : Body α} {q : α → Phase} {v : InitVars} {e : Exn}
    (h : x s.toInitVars = (v, .thrown e)) : s.body c x q = some (s.move c { v with flag := .unset } (.thrown e)) := by
  simp only [InitState.body, h]

theorem Alone.bind {x : Body α} {f : α → Body β} {q : α → Phase} {r : β → Phase}
    (hx : ∀ s₁, s.body c x q = some s₁ → Alone c s s₁)
    (hf : ∀ v a, x s.toInitVars = (v, .ok a) → (s.move c v (q a)).body c (f a) r = some s' →
      Alone c (s.move c v (q a)) s')
    (h : s.body c (x >>= f) r = some s') : Alone c s s' := by
  unfold InitState.body at h
  rw [Eff.bind_apply] at h
  cases hv : x s.toInitVars with
  | mk v o =>
    rw [hv] at h
    cases o with
    | ok a =>
      refine (hx (s.move c v (q a)) (InitState.body_of_ok hv)).trans (hf v a hv ?_)
      simp only [InitState.body, InitState.move_move]
      exact h
    | thrown e =>
      cases h
      exact hx _ (InitState.body_of_thrown hv)
    | terminated => cases h
    | undefined => cases h

theorem Alone.of_step {l : InitLabel} (hl : l.call? = some c) (h : initStep s l = some s') : Alone c s s' :=
  Machine.Reaches.step hl h

theorem move_getElem? (h : s.calls[c]? = some p) (v : InitVars) (p' : Phase) :
    (s.move c v p').calls[c]? = some p' := by
  rw [InitState.move_calls h, if_pos rfl]

theorem loadModules_alone (items : List Json) (rs : List (Except Exn Bool)) (hs : s.calls[c]? = some (.loading items))
    (h : s.body c (loadModules items rs) (fun _ => .loading []) = some s') : Alone c s s' := by
  induction items generalizing s rs with
  | nil =>
    obtain ⟨hc, hs⟩ := List.getElem?_eq_some_iff.1 hs
    obtain rfl : s = s' := by
      rw [← Option.some_inj, ← h]
      show some s = some (s.move c s.toInitVars (.loading []))
      rw [InitState.move, ← hs, List.set_getElem_self]
    exact .refl
  | cons item items ih =>
    refine Alone.bind (q := fun _ => .loading items) (fun s₁ h₁ => ?_) (fun v a hv h => ?_) h
    · exact .of_step (l := .load c (rs.headD (.ok false))) rfl (by simpa only [initStep, hs] using h₁)
    · exact ih rs.tail (move_getElem? hs _ _) h

theorem initBody_alone (env : InitEnv) {path : String} (hs : s.calls[c]? = some (.reading path))
    (h : s.body c (initBody env) (fun _ => .readied) = some s') : Alone c s s' := by
  refine Alone.bind (q := .loading) (fun s₁ h₁ => ?_) (fun v items _ h => ?_) h
  · exact .of_step (l := .read c env.readConfig) rfl (by simpa only [initStep, hs] using h₁)
  have hs := move_getElem? hs v (.loading items)
  refine Alone.bind (q := fun _ => .loading []) (fun s₁ h₁ => loadModules_alone items _ hs h₁) (fun v _ _ h => ?_) h
  have hs := move_getElem? hs v (.loading [])
  refine Alone.bind (q := fun _ => .assigned) (fun s₁ h₁ => ?_) (fun v _ _ h => ?_) h
  · exact .of_step (l := .assign c env.makePluginManager) rfl (by simpa only [initStep, hs] using h₁)
  have hs := move_getElem? hs v .assigned
  exact .of_step (l := .setReady c) rfl (by simpa only [initStep, hs] using h)

theorem check_alone (hs : s.calls[c]? = some .after) :
    ∃ p o, Alone c s (s.move c s.toInitVars p) ∧ checkReady s.toInitVars = (s.toInitVars, o) ∧ p.result = some o := by
  cases hr : s.ready
  · refine ⟨.thrownNotReady (notReady s.message), .thrown (notReady s.message), .of_step (l := .check c) rfl ?_, ?_, rfl⟩
    · simp [initStep, hs, checkReady, hr]
    · simp [checkReady, hr]
  · refine ⟨.returned, .ok (), .of_step (l := .check c) rfl ?_, ?_, rfl⟩
    · simp [initStep, hs, checkReady, hr]
    · simp [checkReady, hr]

theorem initPlugin_alone (env : InitEnv) (path : String) (hs : s.calls[c]? = some (.called path))
    (hidle : ∀ c', s.flag ≠ .running c') :
    ∃ p, Alone c s (s.move c (initPlugin env c s.toInitVars).1 p) ∧
      p.result = some (initPlugin env c s.toInitVars).2 := by
  cases hf : s.flag with
  | running c' => exact absurd hf (hidle c')
  | done =>
    have hcall : callOnce c (initBody env) s.toInitVars = (s.toInitVars, .ok ()) := by simp only [callOnce, hf]
    have hskip : Alone c s (s.move c s.toInitVars .after) :=
      .of_step (l := .skip c) rfl (by simp only [initStep, hs, hf])
    obtain ⟨p, o, ha, ho, hp⟩ := check_alone (move_getElem? hs s.toInitVars .after)
    rw [initPlugin, Eff.bind_of_ok hcall]
    refine ⟨p, ?_, ?_⟩
    · rw [InitState.move_move] at ha
      exact ho ▸ hskip.trans ha
    · exact ho ▸ hp
  | unset =>
    let v₀ : InitVars := { s.toInitVars with flag := .running c }
    have henter : Alone c s (s.move c v₀ (.reading path)) :=
      .of_step (l := .enter c) rfl (by simp only [initStep, hs, hf, v₀])
    have hreading := move_getElem? hs v₀ (.reading path)
    rcases initBody_ends env v₀ with ⟨v, ⟨⟩, hv⟩ | ⟨v, e, hv⟩
    · have hcall : callOnce c (initBody env) s.toInitVars = ({ v with flag := .done }, .ok ()) := by
        simp only [callOnce, hf]
        rw [show initBody env { s.toInitVars with flag := .running c } = _ from hv]
      have hbody : Alone c (s.move c v₀ (.reading path)) (s.move c v .readied) := by
        refine initBody_alone env hreading ?_
        rw [InitState.body_of_ok (s := s.move c v₀ _) hv, InitState.move_move]
      have hleave : Alone c (s.move c v .readied) (s.move c { v with flag := .done } .after) := by
        refine .of_step (l := .leave c) rfl ?_
        simp only [initStep, move_getElem? hs, InitState.move_move]
        rfl
      obtain ⟨p, o, ha, ho, hp⟩ := check_alone (move_getElem? hs { v with flag := .done } .after)
      rw [initPlugin, Eff.bind_of_ok hcall]
      rw [InitState.move_move] at ha
      refine ⟨p, ?_, ho ▸ hp⟩
      exact ho ▸ henter.trans (hbody.trans (hleave.trans ha))
    · have hcall : callOnce c (initBody env) s.toInitVars = ({ v with flag := .unset }, .thrown e) := by
        simp only [callOnce, hf]
        rw [show initBody env { s.toInitVars with flag := .running c } = _ from hv]
      have hbody : Alone c (s.move c v₀ (.reading path)) (s.move c { v with flag := .unset } (.thrown e)) := by
        refine initBody_alone env hreading ?_
        rw [InitState.body_of_thrown (s := s.move c v₀ _) hv, InitState.move_move]
      rw [initPlugin, Eff.bind_of_thrown hcall]
      exact ⟨.thrown e, henter.trans hbody, rfl⟩

end Alone

/-- **A call that is alone does what `initPlugin` says.** -/
theorem initMachine_runs (env : InitEnv) {t : List InitLabel} {s : InitState} (hrun : initMachine.run t = some s)
    (hidle : ∀ c, s.flag ≠ .running c) (path : String) :
    ∃ u p, (∀ l ∈ u, l.call? = some s.calls.length) ∧ p.result = some (initPlugin env s.calls.length s.toInitVars).2 ∧
      initMachine.run (t ++ .call path :: u) =
        some { (initPlugin env s.calls.length s.toInitVars).1 with calls := s.calls ++ [p] } := by
  have hcall : initMachine.run (t ++ [.call path]) = some { s with calls := s.calls ++ [.called path] } := by
    rw [initMachine.run_concat, hrun]
    rfl
  obtain ⟨p, ha, hp⟩ := initPlugin_alone (s := { s with calls := s.calls ++ [.called path] }) (c := s.calls.length) env
    path (by simp) hidle
  obtain ⟨u, hu, hrun'⟩ := ha.run hcall
  refine ⟨u, p, hu, hp, ?_⟩
  rw [List.append_cons, hrun']
  simp only [InitState.move, List.set_append_right _ _ le_rfl, Nat.sub_self, List.set_cons_zero]

end Nessus.Parser
