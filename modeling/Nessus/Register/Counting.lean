import Nessus.Lib.Count
import Nessus.Abi.RefCountInv
import Nessus.Register.Registry

/-!
# Handles to plugin instances

What one step can do (`Steps`, `step_cases`), and the counting invariant of the registry: the count of an instance is
the number of handles to it, in the map and in the calls, and it is alive exactly as long as there is one
(`registry_counted`), as long as no count overflows.  So whatever is in the map or in a running call is alive.
-/

namespace Nessus.Register

open Nessus.Lib Nessus.Abi

variable {env : Env} {s s' : State}

/-! ## What one step can do -/

/-- The exception with which `create_algo_instance` ends after the factory. -/
def Made.failure (env : Env) (qualifiedName : String) : Made → Option Exn
  | throws e => some e
  | null => some (env.noInstance qualifiedName)
  | noInterface => some (env.noInstance qualifiedName)
  | made _ => none

/-- The steps, with the phase their call is in. -/
inductive Steps (env : Env) (s : State) : Label → State → Prop where
  | callCreate {n p : String} : Steps env s (.callCreate n p) (s.call (.creating n p))
  | callExecute {g : Guid} : Steps env s (.callExecute g) (s.call (.executing g))
  | callLookup {g : Guid} : Steps env s (.callLookup g) (s.call (.looking g))
  | callRelease {g : Guid} : Steps env s (.callRelease g) (s.call (.releasing g))
  | factoryFails {c : ℕ} {n p : String} {m : Made} {e : Exn} (hc : s.calls[c]? = some (.creating n p))
      (hm : m.failure env n = some e) : Steps env s (.factory c m) (s.setCall c (.done (.thrown e)))
  | factory {c : ℕ} {n p : String} {a : UInt64} (hc : s.calls[c]? = some (.creating n p))
      (ha : s.occupied a = false) :
      Steps env s (.factory c (.made a)) ((s.make a).setCall c (.created n p s.instances.length))
  | init {c i : ℕ} {n p : String} (hc : s.calls[c]? = some (.created n p i)) :
      Steps env s (.init c none) (s.setCall c (.ready i))
  | initFails {c i : ℕ} {n p : String} {e : Exn} (hc : s.calls[c]? = some (.created n p i)) :
      Steps env s (.init c (some e)) ((s.setCall c (.done (.thrown e))).release i)
  | insert {c i : ℕ} {a : UInt64} (hc : s.calls[c]? = some (.ready i)) (ha : s.isAt i a = true) :
      Steps env s (.insert c a i) ((s.setCall c (.inserted (env.id a) i)).insertOrAssign (env.id a) i)
  | leave {c i : ℕ} {g : Guid} (hc : s.calls[c]? = some (.inserted g i)) :
      Steps env s (.leave c) ((s.setCall c (.done (.id g))).release i)
  | find {c i : ℕ} {g : Guid} (hc : s.calls[c]? = some (.executing g)) (hg : s.map.lookup g = some i) :
      Steps env s (.find c g (some i)) ((s.setCall c (.running g i)).addRef i)
  | findFails {c : ℕ} {g : Guid} (hc : s.calls[c]? = some (.executing g)) (hg : s.map.lookup g = none) :
      Steps env s (.find c g none) (s.setCall c (.done (.thrown env.keyNotFound)))
  | plugin {c i : ℕ} {g : Guid} {r : Except Exn String} (hc : s.calls[c]? = some (.running g i)) :
      Steps env s (.plugin c i r) ((s.setCall c (.done (pluginResult r))).release i)
  | lookup {c i : ℕ} {g : Guid} (hc : s.calls[c]? = some (.looking g)) (hg : s.map.lookup g = some i) :
      Steps env s (.lookup c g (some i)) ((s.setCall c (.done (.handle (some i)))).addRef i)
  | lookupFails {c : ℕ} {g : Guid} (hc : s.calls[c]? = some (.looking g)) (hg : s.map.lookup g = none) :
      Steps env s (.lookup c g none) (s.setCall c (.done (.handle none)))
  | drop {c i : ℕ} (hc : s.calls[c]? = some (.done (.handle (some i)))) :
      Steps env s (.drop c) ((s.setCall c (.done (.handle none))).release i)
  | erase {c : ℕ} {g : Guid} (hc : s.calls[c]? = some (.releasing g)) :
      Steps env s (.erase c g) ((s.setCall c (.done .unit)).erase g)

theorem step_cases {l : Label} (h : step env s l = some s') : Steps env s l s' := by
  rw [step, Option.ite_none_left_eq_some] at h
  replace h := h.2
  cases l with
  | callCreate n p => cases h; exact .callCreate
  | callExecute g => cases h; exact .callExecute
  | callLookup g => cases h; exact .callLookup
  | callRelease g => cases h; exact .callRelease
  | factory c made =>
    simp only [State.go] at h
    split at h
    · next hc =>
      cases made with
      | throws e => cases h; exact .factoryFails hc rfl
      | null => cases h; exact .factoryFails hc rfl
      | noInterface => cases h; exact .factoryFails hc rfl
      | made a =>
        simp only [Option.ite_none_left_eq_some, Bool.not_eq_true] at h
        obtain ⟨ha, ⟨⟩⟩ := h
        exact .factory hc ha
    · cases h
  | init c thrown =>
    simp only [State.go] at h
    split at h
    · next hc =>
      cases thrown with
      | none => cases h; exact .init hc
      | some e => cases h; exact .initFails hc
    · cases h
  | insert c a i =>
    simp only [State.go] at h
    split at h
    · next hc =>
      simp only [Option.ite_none_right_eq_some] at h
      obtain ⟨⟨rfl, ha⟩, ⟨⟩⟩ := h
      exact .insert hc ha
    · cases h
  | leave c =>
    simp only [State.go] at h
    split at h
    · next hc => cases h; exact .leave hc
    · cases h
  | find c g found =>
    simp only [State.go, Option.ite_none_right_eq_some] at h
    obtain ⟨⟨hc, hg⟩, h⟩ := h
    cases found with
    | none => cases h; exact .findFails hc hg.symm
    | some i => cases h; exact .find hc hg.symm
  | plugin c i result =>
    simp only [State.go] at h
    split at h
    · next hc =>
      simp only [Option.ite_none_right_eq_some] at h
      obtain ⟨rfl, ⟨⟩⟩ := h
      exact .plugin hc
    · cases h
  | lookup c g found =>
    simp only [State.go, Option.ite_none_right_eq_some] at h
    obtain ⟨⟨hc, hg⟩, h⟩ := h
    cases found with
    | none => cases h; exact .lookupFails hc hg.symm
    | some i => cases h; exact .lookup hc hg.symm
  | drop c =>
    simp only [State.go] at h
    split at h
    · next hc => cases h; exact .drop hc
    · cases h
  | erase c g =>
    simp only [State.go] at h
    split at h
    · next hc =>
      simp only [Option.ite_none_right_eq_some] at h
      obtain ⟨rfl, ⟨⟩⟩ := h
      exact .erase hc
    · cases h

/-! ## Handles -/

/-- The number of handles to an instance. -/
def State.handles (s : State) (i : ℕ) : ℕ :=
  countValues (· == i) s.map + s.calls.countP fun c => c.held == some i

/-- The counts of the instances are right, where `f i` handles to the `i`-th one exist, and nothing has gone wrong. -/
structure State.CountedBy (s : State) (f : ℕ → ℕ) : Prop
    extends RefCounted (·.refs.toNat) Instance.alive s.instances f where
  noFault : s.fault = none

/-- The counts of the instances are right. -/
def State.Counted (s : State) : Prop := s.CountedBy s.handles

namespace State.CountedBy

variable {f g : ℕ → ℕ} {i : ℕ}

theorem congr (h : s.CountedBy f) (hfg : ∀ i, f i = g i) : s.CountedBy g := (funext hfg : f = g) ▸ h

theorem of_instances (h : s.CountedBy f) (hinstances : s'.instances = s.instances) (hfault : s'.fault = s.fault) :
    s'.CountedBy f := ⟨hinstances ▸ h.toRefCounted, hfault.trans h.noFault⟩

theorem invoke (h : s.CountedBy f) {method : Instance → Except RefCount.Fault Instance} {x y : Instance}
    (hx : s.instances[i]? = some x) (hy : method x = .ok y) (halive : y.alive = true ↔ 0 < g i)
    (hcount : y.alive = true → y.refs.toNat = g i) (hg : ∀ j, j ≠ i → g j = f j) : (s.invoke i method).CountedBy g := by
  have hs : s.invoke i method = { s with instances := s.instances.set i y } := by
    rw [State.invoke, hx, Option.elim_some, hy]
  rw [hs]
  exact ⟨h.set hx halive hcount hg, h.noFault⟩

/-- One more handle, where there is room for it in the count. -/
theorem addRef (h : s.CountedBy f) (hi : 0 < f i) (hg : ∀ j, g j = f j + if i = j then 1 else 0)
    (hlt : g i < 2 ^ 32) : (s.addRef i).CountedBy g := by
  obtain ⟨x, hx, halive, hcount⟩ := h.get hi
  have hgi := hg i
  rw [if_pos rfl] at hgi
  refine h.invoke hx (if_pos halive) (iff_of_true halive (by omega)) (fun _ => ?_) fun j hj => ?_
  · show (x.refs + 1).toNat = g i
    rw [RefCount.refCount_succ (by omega), hcount, hgi]
  · rw [hg j, if_neg (Ne.symm hj), Nat.add_zero]

theorem release (h : s.CountedBy f) (hg : ∀ j, g j + (if i = j then 1 else 0) = f j) : (s.release i).CountedBy g := by
  have hgi := hg i
  rw [if_pos rfl] at hgi
  obtain ⟨x, hx, halive, hcount⟩ := h.get (i := i) (by omega)
  have hpos : x.refs ≠ 0 := by
    intro h0
    rw [h0] at hcount
    simp at hcount
    omega
  have hpred : (x.refs - 1).toNat = g i := by
    rw [RefCount.refCount_pred (by omega)]
    omega
  have hzero : x.refs - 1 = 0 ↔ g i = 0 := by
    rw [← hpred, ← UInt32.toNat_inj]
    rfl
  refine h.invoke hx ((if_pos halive).trans (if_neg hpos)) ?_ (fun _ => hpred) fun j hj => ?_
  · rw [bne_iff_ne, ne_eq, hzero, Nat.pos_iff_ne_zero]
  · have := hg j
    rw [if_neg (Ne.symm hj)] at this
    omega

end State.CountedBy

namespace State

@[simp] theorem map_call (p : Call) : (s.call p).map = s.map := rfl
@[simp] theorem map_make (a : UInt64) : (s.make a).map = s.map := rfl
@[simp] theorem map_setCall (c : ℕ) (p : Call) : (s.setCall c p).map = s.map := rfl
@[simp] theorem instances_setCall (c : ℕ) (p : Call) : (s.setCall c p).instances = s.instances := rfl

section Invoke

variable (i : ℕ) (method : Instance → Except RefCount.Fault Instance)

theorem calls_invoke : (s.invoke i method).calls = s.calls := by
  unfold invoke
  split <;> rfl

theorem map_invoke : (s.invoke i method).map = s.map := by
  unfold invoke
  split <;> rfl

end Invoke

@[simp] theorem calls_addRef (i : ℕ) : (s.addRef i).calls = s.calls := calls_invoke i _
@[simp] theorem calls_release (i : ℕ) : (s.release i).calls = s.calls := calls_invoke i _
@[simp] theorem map_addRef (i : ℕ) : (s.addRef i).map = s.map := map_invoke i _
@[simp] theorem map_release (i : ℕ) : (s.release i).map = s.map := map_invoke i _

theorem handles_of_eq (hmap : s'.map = s.map) (hcalls : s'.calls = s.calls) (i : ℕ) : s'.handles i = s.handles i := by
  rw [handles, handles, hmap, hcalls]

@[simp] theorem handles_addRef (i j : ℕ) : (s.addRef i).handles j = s.handles j :=
  handles_of_eq (map_addRef i) (calls_addRef i) j

@[simp] theorem handles_release (i j : ℕ) : (s.release i).handles j = s.handles j :=
  handles_of_eq (map_release i) (calls_release i) j

@[simp] theorem handles_make (a : UInt64) (j : ℕ) : (s.make a).handles j = s.handles j := rfl

theorem handles_call {p : Call} (hp : p.held = none) (i : ℕ) : (s.call p).handles i = s.handles i := by
  simp [handles, call, hp]

/-- A call that moves on gives up what it held and holds what it holds then. -/
theorem handles_setCall {c : ℕ} {x : Call} (hc : s.calls[c]? = some x) (p : Call) (i : ℕ) :
    (s.setCall c p).handles i + (if x.held == some i then 1 else 0) =
      s.handles i + (if p.held == some i then 1 else 0) := by
  have := countP_set (p := fun c => c.held == some i) hc p
  simp only [handles, setCall]
  omega

theorem handles_pos_of_call {c i : ℕ} {x : Call} (hc : s.calls[c]? = some x) (hx : x.held = some i) :
    0 < s.handles i :=
  Nat.add_pos_right _ (countP_pos_of_getElem? hc (by simp [hx]))

theorem handles_pos_of_lookup {g : Guid} {i : ℕ} (hg : s.map.lookup g = some i) : 0 < s.handles i :=
  Nat.add_pos_left (countValues_pos hg (by simp)) _

@[simp] theorem calls_erase (g : Guid) : (s.erase g).calls = s.calls := by
  unfold erase
  split
  · exact calls_release _
  · rfl

@[simp] theorem map_erase (g : Guid) : (s.erase g).map = s.map.erase g := rfl

@[simp] theorem calls_insertOrAssign (g : Guid) (i : ℕ) : (s.insertOrAssign g i).calls = s.calls := by
  unfold insertOrAssign
  split
  · exact (calls_addRef i).trans (calls_release _)
  · exact calls_addRef i

@[simp] theorem map_insertOrAssign (g : Guid) (i : ℕ) : (s.insertOrAssign g i).map = s.map.insert g i := rfl

theorem Counted.erase (h : s.Counted) (g : Guid) : (s.erase g).Counted := by
  unfold State.erase
  split
  · next j hj =>
    refine CountedBy.of_instances (CountedBy.release h fun i => ?_) rfl rfl
    have := countValues_erase (p := (· == i)) hj
    simp only [handles, calls_release, beq_iff_eq] at this ⊢
    omega
  · next hj =>
    refine CountedBy.of_instances (CountedBy.congr h fun i => ?_) rfl rfl
    simp [handles, countValues_erase_none hj]

/-- `insert_or_assign` replaces what is in the map under the id by a copy of the handle. -/
theorem Counted.insertOrAssign (h : s.Counted) (g : Guid) {c i : ℕ} {x : Call} (hc : s.calls[c]? = some x)
    (hx : x.held = some i) (hlt : (s.insertOrAssign g i).handles i < 2 ^ 32) : (s.insertOrAssign g i).Counted := by
  have herase := h.erase g
  have hpos : 0 < (s.erase g).handles i := handles_pos_of_call (by simpa using hc) hx
  have hadd : ((s.erase g).addRef i).CountedBy (s.insertOrAssign g i).handles := by
    refine herase.addRef hpos (fun j => ?_) hlt
    simp only [handles, map_insertOrAssign, calls_insertOrAssign, calls_erase, map_erase, countValues_insert, beq_iff_eq]
    omega
  -- the map has no part in what happens to the instances
  have hsame : (s.insertOrAssign g i).instances = ((s.erase g).addRef i).instances ∧
      (s.insertOrAssign g i).fault = ((s.erase g).addRef i).fault := by
    unfold State.insertOrAssign State.erase State.addRef State.invoke
    split <;> split <;> simp_all
  exact hadd.of_instances hsame.1 hsame.2

end State

/-! ## Every run -/

theorem start_counted : State.start.Counted :=
  ⟨⟨by simp [State.start], by simp [State.start], fun _ _ => rfl⟩, rfl⟩

section Calls

variable {c i : ℕ} {x p : Call}

theorem calls_setCall_self (hc : s.calls[c]? = some x) (p : Call) : (s.setCall c p).calls[c]? = some p := by
  obtain ⟨hlt, -⟩ := List.getElem?_eq_some_iff.1 hc
  simp [State.setCall, hlt]

theorem counted_setCall (h : s.Counted) (hc : s.calls[c]? = some x) (hxp : x.held = p.held) :
    (s.setCall c p).Counted := by
  have hcounted : (s.setCall c p).CountedBy s.handles := State.CountedBy.of_instances h rfl rfl
  refine hcounted.congr fun i => ?_
  have := State.handles_setCall hc p i
  rw [hxp] at this
  omega

theorem counted_setCall_addRef (h : s.Counted) (hc : s.calls[c]? = some x) (hx : x.held = none)
    (hp : p.held = some i) (hi : 0 < s.handles i) (hlt : ∀ j, ((s.setCall c p).addRef i).handles j < 2 ^ 32) :
    ((s.setCall c p).addRef i).Counted := by
  have hcounted : (s.setCall c p).CountedBy s.handles := State.CountedBy.of_instances h rfl rfl
  refine hcounted.addRef hi (fun j => ?_) (hlt i)
  have := State.handles_setCall hc p j
  simpa [hx, hp] using this

theorem counted_setCall_release (h : s.Counted) (hc : s.calls[c]? = some x) (hx : x.held = some i)
    (hp : p.held = none) : ((s.setCall c p).release i).Counted := by
  have hcounted : (s.setCall c p).CountedBy s.handles := State.CountedBy.of_instances h rfl rfl
  refine hcounted.release fun j => ?_
  have := State.handles_setCall hc p j
  simpa [hx, hp] using this

end Calls

theorem held_done_of_plugin (r : Except Exn String) : (Call.done (pluginResult r)).held = none := by
  cases r <;> rfl

/-- **One step** keeps the counts right, if it makes no count overflow. -/
theorem step_counted {l : Label} (h : s.Counted) (hs : Steps env s l s') (hlt : ∀ i, s'.handles i < 2 ^ 32) :
    s'.Counted := by
  cases hs with
  | @callCreate n p | @callExecute g | @callLookup g | @callRelease g =>
    exact State.CountedBy.of_instances (h.congr fun i => (State.handles_call rfl i).symm) rfl rfl
  | factoryFails hc hm => exact counted_setCall h hc rfl
  | @factory c n p a hc ha =>
    refine ⟨RefCounted.concat h.toRefCounted rfl rfl fun i => ?_, h.noFault⟩
    have := State.handles_setCall (s := s.make a) hc (.created n p s.instances.length) i
    simpa [Call.held] using this
  | init hc => exact counted_setCall h hc rfl
  | initFails hc => exact counted_setCall_release h hc rfl rfl
  | @insert c i a hc ha =>
    have hs := counted_setCall (p := .inserted (env.id a) i) h hc rfl
    exact hs.insertOrAssign (env.id a) (calls_setCall_self hc _) rfl (hlt i)
  | leave hc => exact counted_setCall_release h hc rfl rfl
  | find hc hg => exact counted_setCall_addRef h hc rfl rfl (State.handles_pos_of_lookup hg) hlt
  | findFails hc hg => exact counted_setCall h hc rfl
  | plugin hc => exact counted_setCall_release h hc rfl (held_done_of_plugin _)
  | lookup hc hg => exact counted_setCall_addRef h hc rfl rfl (State.handles_pos_of_lookup hg) hlt
  | lookupFails hc hg => exact counted_setCall h hc rfl
  | drop hc => exact counted_setCall_release h hc rfl rfl
  | @erase c g hc =>
    have hs := counted_setCall (p := .done .unit) h hc rfl
    exact hs.erase g

/-- In no state that the run passes through has the count of an instance overflowed. -/
def NoOverflow (env : Env) (t : List Label) : Prop :=
  ∀ t₁ t₂ s, t = t₁ ++ t₂ → (registry env).run t₁ = some s → ∀ i, s.handles i < 2 ^ 32

theorem NoOverflow.of_concat {t : List Label} {l : Label} (h : NoOverflow env (t ++ [l])) : NoOverflow env t :=
  fun t₁ t₂ s ht => h t₁ (t₂ ++ [l]) s (by simp [ht])

/-- **Every run** in which no count overflows: the counts are right in every state. -/
theorem registry_counted (env : Env) (t : List Label) (s : State) (hlt : NoOverflow env t)
    (hrun : (registry env).run t = some s) : s.Counted := by
  refine Machine.invariant_of (M := registry env) (C := NoOverflow env) (I := fun _ s => s.Counted)
    (fun _ _ => NoOverflow.of_concat) start_counted ?_ t s hlt hrun
  intro t s l s' hr hlt h hs
  refine step_counted h (step_cases hs) (hlt _ [] s' (List.append_nil _).symm ?_)
  rw [Machine.run_concat, hr]
  exact hs

/-! ### Short runs -/

def State.size (s : State) : ℕ := s.map.entries.length + s.calls.length

theorem State.handles_le (s : State) (i : ℕ) : s.handles i ≤ s.size :=
  Nat.add_le_add List.countP_le_length List.countP_le_length

theorem step_size {l : Label} (hs : Steps env s l s') : s'.size ≤ s.size + 1 := by
  have hset (c : ℕ) (p : Call) : (s.setCall c p).calls.length = s.calls.length := List.length_set
  have herase (g : Guid) : (s.map.erase g).entries.length ≤ s.map.entries.length :=
    (List.kerase_sublist g s.map.entries).length_le
  cases hs with
  | @insert c i a hc ha =>
    have hinsert : (s.map.insert (env.id a) i).entries.length ≤ s.map.entries.length + 1 :=
      Nat.succ_le_succ (herase (env.id a))
    rw [State.size, State.map_insertOrAssign, State.calls_insertOrAssign, State.size, hset, State.map_setCall]
    omega
  | @erase c g hc =>
    have := herase g
    rw [State.size, State.map_erase, State.calls_erase, State.size, hset, State.map_setCall]
    omega
  | callCreate | callExecute | callLookup | callRelease =>
    simp only [State.size, State.call, List.length_append, List.length_singleton]
    omega
  | @factory c n p a hc ha =>
    have hcalls : ((s.make a).setCall c (.created n p s.instances.length)).calls.length = s.calls.length := hset _ _
    exact Nat.le_succ_of_le (Nat.add_le_add_left hcalls.le _)
  | _ => simp [State.size, hset]

/-- **In short runs no count overflows**: each step makes at most one handle. -/
theorem noOverflow_of_short {t : List Label} (h : t.length < 2 ^ 32) : NoOverflow env t := by
  have hsize : ∀ t (s : State), (registry env).run t = some s → s.size ≤ t.length := by
    refine Machine.invariant (I := fun t (s : State) => s.size ≤ t.length) (Nat.le_refl 0) ?_
    intro t s l s' _ hi hs
    rw [List.length_append, List.length_singleton]
    exact (step_size (step_cases hs)).trans (Nat.succ_le_succ hi)
  rintro t₁ t₂ s rfl hrun i
  have hle := (s.handles_le i).trans (hsize t₁ s hrun)
  rw [List.length_append] at h
  omega

/-- The instance of that number is there and has not been destroyed. -/
def State.Alive (s : State) (i : ℕ) : Prop := ∃ x, s.instances[i]? = some x ∧ x.alive = true

theorem State.Counted.alive {i : ℕ} (h : s.Counted) (hi : 0 < s.handles i) : s.Alive i := by
  obtain ⟨x, hx, ha, -⟩ := h.get hi
  exact ⟨x, hx, ha⟩

end Nessus.Register
