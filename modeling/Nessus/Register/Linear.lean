import Nessus.Lib.Trace
import Nessus.Register.Counting

/-!
# The registry is linearizable

* `Story env c p t` — the steps `t` that the call `c` has made when it is in phase `p`; every call of every run has one
  (`registry_story`);
* `Registered env t g i` — the instance `i` has been inserted under the id `g`, and `g` has not been erased since;
* `registry_map` — as long as no id is inserted twice, the map holds exactly what is registered;
* `registry_linearizable` — the guarantees of the registry in every state of every run.
-/

namespace Nessus.Register

open Nessus.Lib Nessus.Abi

variable {env : Env}

/-! ## The steps of one call -/

/-- The call that makes the step; a call step makes a new one. -/
def Label.call? : Label → Option ℕ
  | callCreate _ _ => none
  | callExecute _ => none
  | callLookup _ => none
  | callRelease _ => none
  | factory c _ => some c
  | init c _ => some c
  | insert c _ _ => some c
  | leave c => some c
  | find c _ _ => some c
  | plugin c _ _ => some c
  | lookup c _ _ => some c
  | drop c => some c
  | erase c _ => some c

def own (c : ℕ) (t : List Label) : List Label := t.filter fun l => l.call? == some c

theorem mem_own {c : ℕ} {t : List Label} {l : Label} : l ∈ own c t ↔ l ∈ t ∧ l.call? = some c := by
  simp [own]

theorem own_concat_self {c : ℕ} {l : Label} (h : l.call? = some c) (t : List Label) :
    own c (t ++ [l]) = own c t ++ [l] := by
  simp [own, h]

theorem own_concat_other {c : ℕ} {l : Label} (h : l.call? ≠ some c) (t : List Label) :
    own c (t ++ [l]) = own c t := by
  simp [own, h]

/-- The steps a call has made, by the phase it is in. -/
inductive Story (env : Env) (c : ℕ) : Call → List Label → Prop where
  | creating {n p : String} : Story env c (.creating n p) []
  | factoryFails {n : String} {m : Made} {e : Exn} (hm : m.failure env n = some e) :
      Story env c (.done (.thrown e)) [.factory c m]
  | created {n p : String} {a : UInt64} {i : ℕ} : Story env c (.created n p i) [.factory c (.made a)]
  | initFails {a : UInt64} {e : Exn} :
      Story env c (.done (.thrown e)) [.factory c (.made a), .init c (some e)]
  | ready {a : UInt64} {i : ℕ} : Story env c (.ready i) [.factory c (.made a), .init c none]
  | inserted {a a' : UInt64} {i : ℕ} :
      Story env c (.inserted (env.id a) i) [.factory c (.made a'), .init c none, .insert c a i]
  | leave {a a' : UInt64} {i : ℕ} :
      Story env c (.done (.id (env.id a))) [.factory c (.made a'), .init c none, .insert c a i, .leave c]
  | executing {g : Guid} : Story env c (.executing g) []
  | findFails {g : Guid} : Story env c (.done (.thrown env.keyNotFound)) [.find c g none]
  | running {g : Guid} {i : ℕ} : Story env c (.running g i) [.find c g (some i)]
  | plugin {g : Guid} {i : ℕ} {r : Except Exn String} :
      Story env c (.done (pluginResult r)) [.find c g (some i), .plugin c i r]
  | looking {g : Guid} : Story env c (.looking g) []
  | lookup {g : Guid} {r : Option ℕ} : Story env c (.done (.handle r)) [.lookup c g r]
  | drop {g : Guid} {i : ℕ} : Story env c (.done (.handle none)) [.lookup c g (some i), .drop c]
  | releasing {g : Guid} : Story env c (.releasing g) []
  | erase {g : Guid} : Story env c (.done .unit) [.erase c g]

/-- The stories of all calls; a call that has not begun has made no step. -/
structure Stories (env : Env) (t : List Label) (s : State) : Prop where
  story : ∀ c p, s.calls[c]? = some p → Story env c p (own c t)
  unborn : ∀ c, s.calls.length ≤ c → own c t = []

section Stories

variable {t : List Label} {s s' : State}

theorem Stories.begin (h : Stories env t s) {l : Label} {p : Call} (hl : l.call? = none) (hp : ∀ c, Story env c p []) :
    Stories env (t ++ [l]) (s.call p) := by
  have hown (c : ℕ) : own c (t ++ [l]) = own c t := own_concat_other (by simp [hl]) t
  constructor
  · intro c q hq
    rw [hown]
    simp only [State.call, List.getElem?_append] at hq
    split at hq
    · exact h.story c q hq
    · next hc =>
      rw [List.getElem?_singleton, Option.ite_none_right_eq_some] at hq
      obtain ⟨-, ⟨⟩⟩ := hq
      rw [h.unborn c (by omega)]
      exact hp c
  · intro c hc
    rw [hown]
    simp only [State.call, List.length_append, List.length_singleton] at hc
    exact h.unborn c (by omega)

theorem Stories.move (h : Stories env t s) {l : Label} {c : ℕ} {x p : Call} (hl : l.call? = some c)
    (hc : s.calls[c]? = some x) (hcalls : s'.calls = (s.setCall c p).calls)
    (hp : ∀ u, Story env c x u → Story env c p (u ++ [l])) : Stories env (t ++ [l]) s' := by
  obtain ⟨hlt, -⟩ := List.getElem?_eq_some_iff.1 hc
  constructor
  · intro d q hq
    rw [hcalls, State.setCall, List.getElem?_set, if_pos hlt] at hq
    split at hq
    · next hcd =>
      subst hcd
      cases hq
      rw [own_concat_self hl]
      exact hp _ (h.story c x hc)
    · next hcd =>
      rw [own_concat_other (by rw [hl]; simpa using hcd)]
      exact h.story d q hq
  · intro d hd
    rw [hcalls, State.setCall, List.length_set] at hd
    have hcd : c ≠ d := by omega
    rw [own_concat_other (by rw [hl]; simpa using hcd)]
    exact h.unborn d hd

theorem step_stories {l : Label} (h : Stories env t s) (hs : Steps env s l s') : Stories env (t ++ [l]) s' := by
  cases hs with
  | callCreate => exact h.begin rfl fun _ => .creating
  | callExecute => exact h.begin rfl fun _ => .executing
  | callLookup => exact h.begin rfl fun _ => .looking
  | callRelease => exact h.begin rfl fun _ => .releasing
  | factoryFails hc hm => exact h.move rfl hc rfl fun u hu => by cases hu; exact .factoryFails hm
  | factory hc ha => exact h.move rfl hc rfl fun u hu => by cases hu; exact .created
  | init hc => exact h.move rfl hc rfl fun u hu => by cases hu; exact .ready
  | initFails hc => exact h.move rfl hc (State.calls_release _) fun u hu => by cases hu; exact .initFails
  | insert hc ha =>
    exact h.move rfl hc (State.calls_insertOrAssign _ _) fun u hu => by cases hu; exact .inserted
  | leave hc => exact h.move rfl hc (State.calls_release _) fun u hu => by cases hu; exact .leave
  | find hc hg => exact h.move rfl hc (State.calls_addRef _) fun u hu => by cases hu; exact .running
  | findFails hc hg => exact h.move rfl hc rfl fun u hu => by cases hu; exact .findFails
  | plugin hc => exact h.move rfl hc (State.calls_release _) fun u hu => by cases hu; exact .plugin
  | lookup hc hg => exact h.move rfl hc (State.calls_addRef _) fun u hu => by cases hu; exact .lookup
  | lookupFails hc hg => exact h.move rfl hc rfl fun u hu => by cases hu; exact .lookup
  | drop hc =>
    refine h.move rfl hc (State.calls_release _) fun u hu => ?_
    generalize hd : Call.done (.handle (some _)) = d at hu
    cases hu with
    | lookup => cases hd; exact .drop
    | @plugin g i r => cases r <;> cases hd
    | _ => cases hd
  | erase hc => exact h.move rfl hc (State.calls_erase _) fun u hu => by cases hu; exact .erase

end Stories

/-- **Every call of every run has a story.** -/
theorem registry_story (env : Env) (t : List Label) (s : State) (hrun : (registry env).run t = some s) :
    Stories env t s :=
  Machine.invariant (I := Stories env) ⟨by simp [registry, State.start], fun _ _ => rfl⟩
    (fun _ _ _ _ _ h hs => step_stories h (step_cases hs)) t s hrun

/-! ## The contents of the registry -/

/-- The instance has been inserted under the id. -/
def Inserts (env : Env) (g : Guid) (i : ℕ) (l : Label) : Prop := ∃ c a, l = .insert c a i ∧ env.id a = g

def Erases (g : Guid) (l : Label) : Prop := ∃ c, l = .erase c g

/-- **What is registered**: an instance that has been inserted under the id, where the id has not been erased since. -/
def Registered (env : Env) (t : List Label) (g : Guid) (i : ℕ) : Prop := Since (Inserts env g i) (Erases g) t

/-- The id that a step inserts. -/
def Label.insertedId (env : Env) : Label → Option Guid
  | insert _ a _ => some (env.id a)
  | _ => none

/-- No id is inserted twice: no two live instances have the same id, and no id is used again. -/
def FreshIds (env : Env) (t : List Label) : Prop := (t.filterMap (·.insertedId env)).Nodup

theorem Inserts.insertedId {g : Guid} {i : ℕ} {l : Label} (h : Inserts env g i l) : l.insertedId env = some g := by
  obtain ⟨c, a, rfl, rfl⟩ := h
  rfl

theorem FreshIds.of_append {t u : List Label} (h : FreshIds env (t ++ u)) : FreshIds env t := by
  unfold FreshIds at h
  rw [List.filterMap_append, List.nodup_append] at h
  exact h.1

/-- Where no id is inserted twice, what is registered under it before it is inserted is nothing. -/
theorem FreshIds.not_registered {t : List Label} {l : Label} {g : Guid} {i j : ℕ} (h : FreshIds env (t ++ [l]))
    (hl : Inserts env g i l) : ¬ Registered env t g j := by
  intro hr
  obtain ⟨x, hx, hxi⟩ := hr.exists_mem
  unfold FreshIds at h
  rw [List.filterMap_append, List.nodup_append] at h
  exact h.2.2 g (List.mem_filterMap.2 ⟨x, hx, hxi.insertedId⟩) g
    (List.mem_filterMap.2 ⟨l, by simp, hl.insertedId⟩) rfl

theorem registered_concat_other {t : List Label} {l : Label} (hi : ∀ g i, ¬ Inserts env g i l) (he : ∀ g, ¬ Erases g l)
    (g : Guid) (i : ℕ) : Registered env (t ++ [l]) g i ↔ Registered env t g i := by
  rw [Registered, since_concat]
  exact ⟨fun h => (h.resolve_left (hi g i)).2, fun h => .inr ⟨he g, h⟩⟩

section Map

variable {t : List Label} {s s' : State}

theorem step_map {l : Label} (hfresh : FreshIds env (t ++ [l])) (hs : Steps env s l s')
    (h : ∀ g i, s.map.lookup g = some i ↔ Registered env t g i) (g : Guid) (i : ℕ) :
    s'.map.lookup g = some i ↔ Registered env (t ++ [l]) g i := by
  cases hs with
  | @insert c j a hc ha =>
    have hins : Inserts env (env.id a) j (.insert c a j) := ⟨c, a, rfl, rfl⟩
    rw [Registered, since_concat, State.map_insertOrAssign]
    by_cases hg : g = env.id a
    · subst hg
      rw [AList.lookup_insert, Option.some_inj]
      constructor
      · rintro rfl
        exact .inl hins
      · rintro (⟨c', a', he, -⟩ | ⟨-, hr⟩)
        · cases he; rfl
        · exact absurd hr (hfresh.not_registered hins)
    · rw [AList.lookup_insert_ne hg, State.map_setCall, h]
      constructor
      · exact fun hr => .inr ⟨(by rintro ⟨c', he⟩; cases he), hr⟩
      · rintro (⟨c', a', he, ha'⟩ | ⟨-, hr⟩)
        · cases he; exact absurd ha'.symm hg
        · exact hr
  | @erase c g' hc =>
    rw [Registered, since_concat, State.map_erase]
    by_cases hg : g = g'
    · subst hg
      rw [AList.lookup_erase]
      refine ⟨fun h => (by cases h), ?_⟩
      rintro (⟨c', a', he, -⟩ | ⟨he, -⟩)
      · cases he
      · exact absurd ⟨c, rfl⟩ he
    · rw [AList.lookup_erase_ne hg, State.map_setCall, h]
      constructor
      · exact fun hr => .inr ⟨(by rintro ⟨c', he⟩; cases he; exact hg rfl), hr⟩
      · rintro (⟨c', a', he, -⟩ | ⟨-, hr⟩)
        · cases he
        · exact hr
  | _ =>
    simp only [State.map_addRef, State.map_release, State.map_setCall, State.map_call, State.map_make]
    refine (h g i).trans (registered_concat_other ?_ ?_ g i).symm
    · rintro g i ⟨c, a, he, -⟩
      cases he
    · rintro g ⟨c, he⟩
      cases he

end Map

/-- **The map holds exactly what is registered.** -/
theorem registry_map (env : Env) (t : List Label) (s : State) (hfresh : FreshIds env t)
    (hrun : (registry env).run t = some s) (g : Guid) (i : ℕ) : s.map.lookup g = some i ↔ Registered env t g i := by
  refine Machine.invariant_of (M := registry env) (C := FreshIds env)
    (I := fun t s => ∀ g i, s.map.lookup g = some i ↔ Registered env t g i) (fun _ _ => FreshIds.of_append) ?_ ?_
    t s hfresh hrun g i
  · intro g i
    exact ⟨fun h => (by cases h), fun h => absurd h not_since_nil⟩
  · exact fun t s l s' _ hf h hs => step_map hf (step_cases hs) h

theorem found_iff {t t₁ t₂ : List Label} {s : State} {l : Label} {g : Guid} {r : Option ℕ} (hfresh : FreshIds env t)
    (hrun : (registry env).run t = some s) (ht : t = t₁ ++ l :: t₂)
    (hl : ∀ u u', Steps env u l u' → r = u.map.lookup g) (i : ℕ) : r = some i ↔ Registered env t₁ g i := by
  have ht' : t = (t₁ ++ [l]) ++ t₂ := by rw [ht]; simp
  rw [ht'] at hfresh hrun
  obtain ⟨s₂, h₂⟩ := Machine.run_of_append _ hrun
  obtain ⟨s₁, h₁, hstep⟩ := ((registry env).run_concat_eq_some).1 h₂
  rw [hl s₁ s₂ (step_cases hstep)]
  exact registry_map env t₁ s₁ hfresh.of_append.of_append h₁ g i

theorem find_reads {c : ℕ} {g : Guid} {r : Option ℕ} {u u' : State} (h : Steps env u (.find c g r) u') :
    r = u.map.lookup g := by
  cases h with
  | find hc hg => exact hg.symm
  | findFails hc hg => exact hg.symm

theorem lookup_reads {c : ℕ} {g : Guid} {r : Option ℕ} {u u' : State} (h : Steps env u (.lookup c g r) u') :
    r = u.map.lookup g := by
  cases h with
  | lookup hc hg => exact hg.symm
  | lookupFails hc hg => exact hg.symm

/-! ## Linearizability -/

/-- A create has failed: there is no such class, it does not implement the interface, or `init` has thrown. -/
def CreateFails (c : ℕ) (t : List Label) : Prop :=
  (∃ m, .factory c m ∈ t ∧ ∀ a, m ≠ .made a) ∨ ∃ e, .init c (some e) ∈ t

/-- **The guarantees of the registry** after the run `t`. -/
structure Linearizable (env : Env) (t : List Label) (s : State) : Prop where
  /-- The map holds exactly the instances that have been inserted and whose id has not been erased since. -/
  map : ∀ g i, s.map.lookup g = some i ↔ Registered env t g i
  /-- A create that fails ends with an exception and inserts nothing. -/
  fails : ∀ c, CreateFails c t → (∃ e, s.calls[c]? = some (.done (.thrown e))) ∧ ∀ a i, .insert c a i ∉ t
  /-- The lookup step of an execute finds exactly what is registered at that moment. -/
  finds : ∀ t₁ c g r t₂, t = t₁ ++ .find c g r :: t₂ → ∀ i, r = some i ↔ Registered env t₁ g i
  /-- An execute that found the instance reaches the plugin: it is running, or the plugin has ended it. -/
  reaches : ∀ c g i, .find c g (some i) ∈ t →
    s.calls[c]? = some (Call.running g i) ∨ ∃ r, Label.plugin c i r ∈ t ∧ s.calls[c]? = some (.done (pluginResult r))
  /-- No other execute reaches a plugin. -/
  reached : ∀ c i, ((∃ g, s.calls[c]? = some (Call.running g i)) ∨ ∃ r, Label.plugin c i r ∈ t) →
    ∃ g, .find c g (some i) ∈ t
  /-- An execute that found nothing reports key-not-found and reaches no plugin. -/
  notFound : ∀ c g, .find c g none ∈ t →
    s.calls[c]? = some (.done (.thrown env.keyNotFound)) ∧ ∀ i r, .plugin c i r ∉ t
  /-- What is in the registry has not been destroyed. -/
  map_alive : ∀ g i, s.map.lookup g = some i → s.Alive i
  /-- What a running execute found has not been destroyed. -/
  running_alive : ∀ (c : ℕ) g i, s.calls[c]? = some (.running g i) → s.Alive i
  /-- Nothing is used after its destruction, and no count is decremented below zero. -/
  noFault : s.fault = none

section Facts

variable {t : List Label} {s : State}

theorem Stories.of_mem (h : Stories env t s) {l : Label} {c : ℕ} (hl : l.call? = some c) (hmem : l ∈ t) :
    ∃ p, s.calls[c]? = some p ∧ Story env c p (own c t) ∧ l ∈ own c t := by
  have hown : l ∈ own c t := mem_own.2 ⟨hmem, hl⟩
  cases hc : s.calls[c]? with
  | none =>
    rw [h.unborn c (List.getElem?_eq_none_iff.1 hc)] at hown
    cases hown
  | some p => exact ⟨p, rfl, h.story c p hc, hown⟩

theorem Stories.fails (h : Stories env t s) {c : ℕ} (hf : CreateFails c t) :
    (∃ e, s.calls[c]? = some (.done (.thrown e))) ∧ ∀ a i, .insert c a i ∉ t := by
  have hinsert (a : UInt64) (i : ℕ) (hno : .insert c a i ∉ own c t) : .insert c a i ∉ t :=
    fun hmem => hno (mem_own.2 ⟨hmem, rfl⟩)
  rcases hf with ⟨m, hmem, hm⟩ | ⟨e, hmem⟩
  · obtain ⟨p, hc, hs, hown⟩ := h.of_mem rfl hmem
    generalize own c t = u at hs hown hinsert
    cases hs with
    | @factoryFails n m' e hf => exact ⟨⟨e, hc⟩, fun a i => hinsert a i (by simp)⟩
    | _ => simp_all
  · obtain ⟨p, hc, hs, hown⟩ := h.of_mem rfl hmem
    generalize own c t = u at hs hown hinsert
    cases hs with
    | @initFails a e => exact ⟨⟨e, hc⟩, fun a i => hinsert a i (by simp)⟩
    | _ => simp at hown

theorem Stories.reaches (h : Stories env t s) {c i : ℕ} {g : Guid} (hmem : .find c g (some i) ∈ t) :
    s.calls[c]? = some (Call.running g i) ∨ ∃ r, Label.plugin c i r ∈ t ∧ s.calls[c]? = some (.done (pluginResult r)) := by
  obtain ⟨p, hc, hs, hown⟩ := h.of_mem rfl hmem
  have hin (l : Label) (hl : l ∈ own c t) : l ∈ t := (mem_own.1 hl).1
  generalize own c t = u at hs hown hin
  cases hs with
  | running =>
    simp only [List.mem_singleton, Label.find.injEq, Option.some_inj, true_and] at hown
    obtain ⟨rfl, rfl⟩ := hown
    exact .inl hc
  | @plugin g' i' r =>
    simp only [List.mem_cons, Label.find.injEq, Option.some_inj, true_and, reduceCtorEq, List.not_mem_nil,
      or_false] at hown
    obtain ⟨rfl, rfl⟩ := hown
    exact .inr ⟨r, hin _ (by simp), hc⟩
  | _ => simp at hown

theorem Stories.reached (h : Stories env t s) {c i : ℕ}
    (hr : (∃ g, s.calls[c]? = some (Call.running g i)) ∨ ∃ r, Label.plugin c i r ∈ t) : ∃ g, .find c g (some i) ∈ t := by
  have hin (l : Label) (hl : l ∈ own c t) : l ∈ t := (mem_own.1 hl).1
  rcases hr with ⟨g, hc⟩ | ⟨r, hmem⟩
  · have hs := h.story c _ hc
    generalize own c t = u at hs hin
    cases hs with
    | running => exact ⟨g, hin _ (by simp)⟩
  · obtain ⟨p, hc, hs, hown⟩ := h.of_mem rfl hmem
    generalize own c t = u at hs hown hin
    cases hs with
    | @plugin g' i' r' =>
      simp only [List.mem_cons, Label.plugin.injEq, true_and, reduceCtorEq, List.not_mem_nil, or_false,
        false_or] at hown
      obtain ⟨rfl, rfl⟩ := hown
      exact ⟨g', hin _ (by simp)⟩
    | _ => simp at hown

theorem Stories.notFound (h : Stories env t s) {c : ℕ} {g : Guid} (hmem : .find c g none ∈ t) :
    s.calls[c]? = some (.done (.thrown env.keyNotFound)) ∧ ∀ i r, .plugin c i r ∉ t := by
  obtain ⟨p, hc, hs, hown⟩ := h.of_mem rfl hmem
  have hplugin (i : ℕ) (r : Except Exn String) (hno : .plugin c i r ∉ own c t) : .plugin c i r ∉ t :=
    fun hm => hno (mem_own.2 ⟨hm, rfl⟩)
  generalize own c t = u at hs hown hplugin
  cases hs with
  | findFails => exact ⟨hc, fun i r => hplugin i r (by simp)⟩
  | _ => simp at hown

end Facts

/-- **The registry is linearizable**: in every state of every interleaving of calls, as long as no id is used twice and no
count overflows. -/
theorem registry_linearizable (env : Env) (t : List Label) (s : State) (hfresh : FreshIds env t)
    (hlt : NoOverflow env t) (hrun : (registry env).run t = some s) : Linearizable env t s := by
  have hstories := registry_story env t s hrun
  have hcounted := registry_counted env t s hlt hrun
  exact {
    map := registry_map env t s hfresh hrun
    fails := fun c => hstories.fails
    finds := fun t₁ c g r t₂ ht => found_iff hfresh hrun ht fun _ _ => find_reads
    reaches := fun c g i => hstories.reaches
    reached := fun c i => hstories.reached
    notFound := fun c g => hstories.notFound
    map_alive := fun g i hg => hcounted.alive (State.handles_pos_of_lookup hg)
    running_alive := fun c g i hc => hcounted.alive (State.handles_pos_of_call hc rfl)
    noFault := hcounted.noFault }

/-- GUIDs that are the bytes themselves, and messages that are what was given. -/
def Env.plain : Env where
  createGuidFromBytes bytes := ⟨0, 0, 0, bytes⟩
  createAbiExceptionMessage _ inner := inner

/-- An instance is released while an execute is running on it, and a second execute comes too late. -/
def releaseDuringExecute : List Label :=
  [.callCreate "A" "", .factory 0 (.made 8), .init 0 none, .insert 0 8 0, .leave 0,
    .callExecute (Env.plain.id 8), .callRelease (Env.plain.id 8), .find 1 (Env.plain.id 8) (some 0),
    .erase 2 (Env.plain.id 8), .callExecute (Env.plain.id 8), .find 3 (Env.plain.id 8) none, .plugin 1 0 (.ok "done")]

theorem releaseDuringExecute_linearizable :
    ∃ s, (registry Env.plain).run releaseDuringExecute = some s ∧ Linearizable Env.plain releaseDuringExecute s := by
  have hfresh : FreshIds Env.plain releaseDuringExecute := by
    unfold FreshIds
    decide
  have hrun : ((registry Env.plain).run releaseDuringExecute).isSome := by decide
  obtain ⟨s, hs⟩ := Option.isSome_iff_exists.1 hrun
  exact ⟨s, hs, registry_linearizable Env.plain _ s hfresh (noOverflow_of_short (by decide)) hs⟩

/-! ### A count that overflows -/

/-- An instance is created, and `k` clients look it up and keep the handle. -/
def lookups (k : ℕ) : List Label :=
  [.callCreate "A" "", .factory 0 (.made 8), .init 0 none, .insert 0 8 0, .leave 0] ++
    (List.range k).flatMap fun j => [.callLookup (Env.plain.id 8), .lookup (j + 1) (Env.plain.id 8) (some 0)]

/-- The state after `lookups`: the count is the number of handles modulo 2^32. -/
def lookupsState (k : ℕ) : State where
  instances := [⟨8, UInt32.ofNat (k + 1), true⟩]
  map := AList.insert (Env.plain.id 8) 0 ∅
  calls := .done (.id (Env.plain.id 8)) :: List.replicate k (.done (.handle (some 0)))
  fault := none

theorem lookups_succ (k : ℕ) : lookups (k + 1) =
    lookups k ++ [.callLookup (Env.plain.id 8), .lookup (k + 1) (Env.plain.id 8) (some 0)] := by
  simp [lookups, List.range_succ]

theorem lookupsState_succ (k : ℕ) : ((registry Env.plain).step (lookupsState k) (.callLookup (Env.plain.id 8))).bind
    (fun s => (registry Env.plain).step s (.lookup (k + 1) (Env.plain.id 8) (some 0))) = some (lookupsState (k + 1)) := by
  have hlength : (List.replicate k (Call.done (.handle (some 0)))).length = k := List.length_replicate
  have hfound : (lookupsState k).map.lookup (Env.plain.id 8) = some 0 := AList.lookup_insert _
  set s := (lookupsState k).call (.looking (Env.plain.id 8)) with hs
  have hcall : s.calls[k + 1]? = some (.looking (Env.plain.id 8)) := by
    show (List.replicate k _ ++ [_])[k]? = _
    rw [List.getElem?_append_right hlength.le, hlength, Nat.sub_self]
    rfl
  have hstep : step Env.plain s (.lookup (k + 1) (Env.plain.id 8) (some 0)) =
      some ((s.setCall (k + 1) (.done (.handle (some 0)))).addRef 0) := by
    have hfault : s.fault.isSome = false := rfl
    rw [step, hfault, if_neg Bool.false_ne_true, State.go, if_pos ⟨hcall, hfound.symm⟩]
  have hcalls : s.calls.set (k + 1) (.done (.handle (some 0))) = (lookupsState (k + 1)).calls := by
    show _ :: (List.replicate k _ ++ [_]).set k _ = _
    rw [List.set_append_right _ _ hlength.le, hlength, Nat.sub_self, lookupsState, List.replicate_succ']
    rfl
  have hcount : UInt32.ofNat (k + 1) + 1 = UInt32.ofNat (k + 1 + 1) := (UInt32.ofNat_add (k + 1) 1).symm
  have hstate : (s.setCall (k + 1) (.done (.handle (some 0)))).addRef 0 =
      { s with instances := [⟨8, UInt32.ofNat (k + 1) + 1, true⟩], calls := s.calls.set (k + 1) (.done (.handle (some 0))) } :=
    rfl
  show step Env.plain s (.lookup (k + 1) (Env.plain.id 8) (some 0)) = _
  rw [hstep, hstate, hcalls, hcount]
  rfl

theorem run_lookups (k : ℕ) : (registry Env.plain).run (lookups k) = some (lookupsState k) := by
  induction k with
  | zero => rfl
  | succ k ih =>
    rw [lookups_succ, Machine.run_append, ih, Option.bind_some, ← lookupsState_succ k, List.foldlM_cons]
    simp only [List.foldlM_cons, List.foldlM_nil, bind_pure]
    rfl

theorem freshIds_lookups (k : ℕ) : FreshIds Env.plain (lookups k ++ [.drop 1]) := by
  have hnone (l : List ℕ) : (l.flatMap fun j =>
      [Label.callLookup (Env.plain.id 8), .lookup (j + 1) (Env.plain.id 8) (some 0)]).filterMap
        (·.insertedId Env.plain) = [] := by
    rw [List.filterMap_eq_nil_iff]
    intro x hx
    obtain ⟨j, -, hx⟩ := List.mem_flatMap.1 hx
    rcases List.mem_cons.1 hx with rfl | hx
    · rfl
    · rw [List.mem_singleton.1 hx]
      rfl
  rw [FreshIds, lookups, List.filterMap_append, List.filterMap_append, hnone]
  exact List.nodup_singleton (Env.plain.id 8)

theorem run_lookups_drop (k : ℕ) : (registry Env.plain).run (lookups (k + 1) ++ [.drop 1]) =
    some (((lookupsState (k + 1)).setCall 1 (.done (.handle none))).release 0) := by
  rw [Machine.run_concat, run_lookups]
  rfl

/-- With 2^32 clients that have looked it up, and the handle of the registry, the count of an instance is one: the first
client that lets its handle go destroys the instance, which is still registered. -/
theorem not_linearizable_lookups : FreshIds Env.plain (lookups (2 ^ 32 - 1 + 1) ++ [.drop 1]) ∧
    ∃ s, (registry Env.plain).run (lookups (2 ^ 32 - 1 + 1) ++ [.drop 1]) = some s ∧
      ¬ Linearizable Env.plain (lookups (2 ^ 32 - 1 + 1) ++ [.drop 1]) s := by
  refine ⟨freshIds_lookups _, _, run_lookups_drop _, fun h => ?_⟩
  have hcount : UInt32.ofNat (2 ^ 32 - 1 + 1 + 1) = 1 := by decide
  set s := (lookupsState (2 ^ 32 - 1 + 1)).setCall 1 (.done (.handle none)) with hs
  have hinstances : s.instances = [⟨8, 1, true⟩] := by rw [hs, State.instances_setCall, lookupsState, hcount]
  have hrelease : (s.release 0).instances = [⟨8, 0, false⟩] := by
    rw [State.release, State.invoke, hinstances]
    rfl
  have hmap : (s.release 0).map.lookup (Env.plain.id 8) = some 0 := by
    rw [State.map_release]
    exact AList.lookup_insert _
  obtain ⟨x, hx, halive⟩ := h.map_alive _ 0 hmap
  rw [hrelease] at hx
  cases hx
  cases halive

end Nessus.Register
