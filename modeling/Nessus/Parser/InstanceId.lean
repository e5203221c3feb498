import Nessus.Abi.GuidText
import Nessus.Parser.CApi

/-!
# Instance ids on their way through a client

`parser_create_instance` prints the id of an instance, and `parser_execute` and `parser_release_instance` read it back.
-/

namespace Nessus.Parser

open Nessus.Lib Nessus.Abi

/-- The value of `instance_id` that a client finds in the reply. -/
def Reply.instanceId : Reply → Option String
  | .written (.object members) =>
    match members.lookup "instance_id" with
    | some (.string id) => some id
    | _ => none
  | _ => none

section

variable {σ : Type}

/-- The two functions that are given the text of an id call the implementation with the key `id`. -/
structure ReadsAs (P : Primitives σ) (obj : Option (ParserImpl σ)) (text : String) (id : Guid) : Prop where
  execute : ∀ (strParam : Option String) (inputData : Option (List Byte)) (inputDataLen : ℤ)
    (outputData : Option (List Byte)) (outputDataLen : ℤ),
    parserExecute P obj (some text) strParam inputData inputDataLen outputData outputDataLen =
      (tryStatus ((adapter P obj).execute id (strParam.getD "") (.ofLen inputData inputDataLen)
        (.ofLen outputData outputDataLen) >>= fun result =>
          pure (.object [("result", .string (result.getD "")), status 0 "OK"])) >>= fun value => pure (.written value))
  release : parserReleaseInstance P obj (some text) = (adapter P obj).releaseInstance id

theorem readsAs_ofString (P : Primitives σ) (obj : Option (ParserImpl σ)) (text : String) :
    ReadsAs P obj text (.ofString text.toList) := ⟨fun _ _ _ _ _ => rfl, rfl⟩

variable {P : Primitives σ} {obj : Option (ParserImpl σ)}

/-- What is made of an exception holds a status and nothing else. -/
theorem tryStatus_cases {x : Eff σ Exn Json} {s s' : σ} {v : Json} (h : tryStatus x s = (s', .ok v)) :
    x s = (s', .ok v) ∨ ∃ code message, v = .object [status code message] := by
  rcases hx : x s with ⟨t, a | e | _ | _⟩
  · rw [tryStatus, tryCatch_ok hx] at h
    exact .inl h
  · right
    rw [tryStatus, tryCatch_thrown hx] at h
    -- the exception meets one of the clauses, or goes on
    simp only [statusClauses, handle_cons, handle_nil, catchAbi, catchParser, catchStd] at h
    revert h
    cases e.asAbi with
    | some ex => exact fun h => ⟨_, _, (Outcome.ok.inj (Prod.mk.inj h).2).symm⟩
    | none =>
      cases e.asParser with
      | some p => exact fun h => ⟨_, _, (Outcome.ok.inj (Prod.mk.inj h).2).symm⟩
      | none =>
        cases e.asStd .jsonException with
        | some what => exact fun h => ⟨_, _, (Outcome.ok.inj (Prod.mk.inj h).2).symm⟩
        | none =>
          cases e.asStd .exception with
          | some what => exact fun h => ⟨_, _, (Outcome.ok.inj (Prod.mk.inj h).2).symm⟩
          | none =>
            intro h
            cases (Prod.mk.inj h).2
  · rw [tryStatus, tryCatch_terminated hx] at h
    cases (Prod.mk.inj h).2
  · rw [tryStatus, tryCatch_undefined hx] at h
    cases (Prod.mk.inj h).2

theorem nonNull_eq_ok {v : Option String} {s s' : σ} {text : String} :
    nonNull v s = (s', .ok text) ↔ v = some text ∧ s = s' := by
  cases v with
  | none => simp [nonNull]
  | some v => simp [nonNull, and_comm]

/-- An id in a reply is the text of the id that the implementation has returned. -/
theorem instanceId_createInstance {qualifiedName strParam : Option String} {s s' : σ} {reply : Reply} {text : String}
    (h : parserCreateInstance P obj qualifiedName strParam s = (s', .ok reply)) (ht : reply.instanceId = some text) :
    ∃ name param id, qualifiedName = some name ∧ strParam = some param ∧
      (adapter P obj).createInstance name param s = (s', .ok id) ∧ text = id.toString := by
  obtain ⟨t, v, hv, hw⟩ := Eff.bind_eq_ok.1 h
  obtain ⟨rfl, hr⟩ := Prod.mk.inj hw
  obtain rfl := Outcome.ok.inj hr
  rcases tryStatus_cases hv with hx | ⟨code, message, rfl⟩
  · obtain ⟨t₁, name, hname, hx⟩ := Eff.bind_eq_ok.1 hx
    obtain ⟨t₂, param, hparam, hx⟩ := Eff.bind_eq_ok.1 hx
    obtain ⟨t₃, id, hid, hx⟩ := Eff.bind_eq_ok.1 hx
    obtain ⟨rfl, hid'⟩ := Prod.mk.inj hx
    obtain rfl := Outcome.ok.inj hid'
    obtain ⟨rfl, rfl⟩ := nonNull_eq_ok.1 hname
    obtain ⟨rfl, rfl⟩ := nonNull_eq_ok.1 hparam
    have ht : some id.toString = some text := ht
    exact ⟨name, param, id, rfl, rfl, hid, (Option.some.inj ht).symm⟩
  · have ht : (none : Option String) = some text := ht
    cases ht

end

/-- **Texts of GUIDs.**  What is printed of a `guid` is read as that `guid`; a text in the canonical form is read as a
`guid` that is printed as that text in upper case; and an id that `parser_create_instance` prints is the text of the
`guid` that the implementation has returned, and is read back as that `guid` by the two other functions. -/
theorem instanceId_roundTrip :
    (∀ id : Guid, Guid.ofString id.toString.toList = id) ∧
    (∀ s : List Char, Canonical s → (Guid.ofString s).toString.toList = s.map Char.toUpper) ∧
    ∀ (σ : Type) (P : Primitives σ) (obj : Option (ParserImpl σ)) (qualifiedName strParam : Option String) (s s' : σ)
      (reply : Reply) (text : String), parserCreateInstance P obj qualifiedName strParam s = (s', .ok reply) →
      reply.instanceId = some text →
      ∃ name param id, qualifiedName = some name ∧ strParam = some param ∧
        (adapter P obj).createInstance name param s = (s', .ok id) ∧ text = id.toString ∧
        ∀ later : Option (ParserImpl σ), ReadsAs P later text id := by
  refine ⟨Guid.ofString_toList_toString, fun s => Guid.toList_toString_ofString, ?_⟩
  intro σ P obj qualifiedName strParam s s' reply text h ht
  obtain ⟨name, param, id, hname, hparam, hid, rfl⟩ := instanceId_createInstance h ht
  refine ⟨name, param, id, hname, hparam, hid, rfl, fun later => ?_⟩
  have hreads := readsAs_ofString P later id.toString
  rwa [Guid.ofString_toList_toString] at hreads

/-- An implementation whose instances all have the id `id`. -/
def issuer (id : Guid) : ParserImpl (Option String) where
  createInstance _ _ := pure id
  execute _ _ _ _ := pure none
  releaseInstance _ := pure ()
  initPlugin _ := pure ()

/-- A text in lower case; and an id that is printed and read back. -/
theorem instanceId_roundTrip_run :
    (Guid.ofString "a9b635e2-0217-4343-9215-7ef1e0920ddd".toList).toString.toList =
        "A9B635E2-0217-4343-9215-7EF1E0920DDD".toList ∧
      ReadsAs Primitives.slot (some (issuer .unknownObject)) "00000000-0000-0000-C000-000000000046" .unknownObject := by
  obtain ⟨-, hcanonical, hprinted⟩ := instanceId_roundTrip
  constructor
  · refine (hcanonical _ (canonical_of_all ⟨"a9b635e2".toList, "0217".toList, "4343".toList, "9215".toList,
      "7ef1e0920ddd".toList, by decide, by decide, by decide, by decide, by decide⟩ (by decide))).trans ?_
    decide
  · obtain ⟨_, _, id, -, -, hid, htext, hreads⟩ := hprinted (Option String) Primitives.slot
      (some (issuer .unknownObject)) (some "") (some "") none none _ _ rfl rfl
    obtain rfl : Guid.unknownObject = id := Outcome.ok.inj (Prod.mk.inj hid).2
    exact hreads _

end Nessus.Parser
