import XmlRules.Processor.Bench
import XmlRules.Proofs.TableIndexes
namespace XmlRules

inductive RulesCall where
  | register (entry : Registration)
  | addRules (pattern : String) (actions : List ActionId)
deriving DecidableEq, Repr

namespace RulesCall

def change : RulesCall → RuleM Unit
  | .register entry => RuleTable.register entry
  | .addRules pattern actions => RuleTable.addRules pattern actions

-- The pattern that a call is judged by. A rule without an action is never read.
def pattern? : RulesCall → Option String
  | .register (.rule pattern _) => some pattern
  | .addRules pattern (_ :: _) => some pattern
  | _ => none

end RulesCall

namespace RuleTable

theorem addRule_refused {t : RuleTable} {text : String} {fault : PatternFault}
    (malformed : Pattern.parse t.prefixes text = .error fault) (a : ActionId) :
    (addRule text a).perform t = (.error (.pattern text fault), t) := by
  rw [addRule, Attempt.perform_bind, Attempt.perform_get]
  simp only [malformed]
  rfl

theorem addRule_done {t : RuleTable} {text : String} {p : Pattern}
    (parsed : Pattern.parse t.prefixes text = .ok p) (a : ActionId) :
    (addRule text a).perform t = (.ok (), t.addPattern p a) := by
  rw [addRule, Attempt.perform_bind, Attempt.perform_get]
  simp only [parsed]
  rfl

@[simp] theorem prefixes_addPattern (t : RuleTable) (p : Pattern) (a : ActionId) :
    (t.addPattern p a).prefixes = t.prefixes := by
  have kept : ∀ (u : RuleTable) (position : Nat), (u.file position p).prefixes = u.prefixes := by
    intro u position
    unfold file
    split
    · rfl
    · split <;> rfl
  have remembered : (t.remember a).prefixes = t.prefixes := by
    unfold remember
    split <;> rfl
  unfold addPattern
  dsimp only
  split
  · exact remembered
  · rw [append, kept]
    exact remembered

-- The prefixes are the same for every action, so that a pattern read once is read again.
theorem addRules_done {text : String} {p : Pattern} (actions : List ActionId) {t : RuleTable}
    (parsed : Pattern.parse t.prefixes text = .ok p) :
    (addRules text actions).perform t = (.ok (), actions.foldl (·.addPattern p ·) t) := by
  induction actions generalizing t with
  | nil => rfl
  | cons a actions ih =>
    have next := ih (t := t.addPattern p a) (by simpa using parsed)
    change (addRule text a >>= fun _ => addRules text actions).perform t = _
    rw [Attempt.perform_bind_ok (addRule_done parsed a)]
    exact next

theorem change_cases (t : RuleTable) (call : RulesCall) :
    (∃ u, call.change.perform t = (.ok (), u)) ∨
      ∃ text fault, call.pattern? = some text ∧ Pattern.parse t.prefixes text = .error fault ∧
        call.change.perform t = (.error (.pattern text fault), t) := by
  cases call with
  | register entry =>
    cases entry with
    | rule text a =>
      cases parsed : Pattern.parse t.prefixes text with
      | ok p => exact .inl ⟨_, addRule_done parsed a⟩
      | error fault => exact .inr ⟨text, fault, rfl, parsed, addRule_refused parsed a⟩
    | declare | fallback | fallbacks | mandatory | mandatories => exact .inl ⟨_, rfl⟩
  | addRules text actions =>
    cases parsed : Pattern.parse t.prefixes text with
    | ok p => exact .inl ⟨_, addRules_done actions parsed⟩
    | error fault =>
      cases actions with
      | nil => exact .inl ⟨t, rfl⟩
      | cons a actions =>
        refine .inr ⟨text, fault, rfl, parsed, ?_⟩
        change (addRule text a >>= fun _ => addRules text actions).perform t = _
        exact Attempt.perform_bind_error (addRule_refused parsed a) _

end RuleTable

namespace Registry

@[simp] theorem withTable_table (r : Registry) : r.withTable r.table = r := by
  cases r <;> rfl

theorem amend_cases (r : Registry) (call : RulesCall) :
    (∃ after, r.amend call.change = (.ok (), after)) ∨
      ∃ text fault, call.pattern? = some text ∧ Pattern.parse r.table.prefixes text = .error fault ∧
        r.amend call.change = (.error (.pattern text fault), r) := by
  unfold amend
  rcases r.table.change_cases call with ⟨u, ran⟩ | ⟨text, fault, judged, malformed, ran⟩
  · exact .inl ⟨r.withTable u, by rw [ran]⟩
  · refine .inr ⟨text, fault, judged, malformed, ?_⟩
    rw [ran]
    simp

end Registry

namespace Bench

def ask (s : Station) : RulesCall → BenchM Unit
  | .register entry => register s entry
  | .addRules pattern actions => addRules s pattern actions

theorem ask_eq (s : Station) (call : RulesCall) : ask s call = amend s call.change := by
  cases call <;> rfl

theorem cells_restored (b : Bench) (cell : Nat) :
    b.cells.modify cell (fun c => { c with registry := b.registry cell }) = b.cells := by
  refine List.ext_getElem? fun i => ?_
  rw [List.getElem?_modify]
  split
  · rename_i same
    subst same
    cases found : b.cells[cell]? with
    | none => rfl
    | some c => simp [registry, found]
  · simp

inductive Refusal (b : Bench) (s : Station) (call : RulesCall) : ReadError → Prop where
  | shared (owners : b.owners s.cell ≠ 1) : Refusal b s call .sharedRules
  | malformed (owners : b.owners s.cell = 1) {text : String} {fault : PatternFault}
      (judged : call.pattern? = some text)
      (refused : Pattern.parse (b.registry s.cell).table.prefixes text = .error fault) :
      Refusal b s call (.rule (.pattern text fault))

theorem ask_cases (b : Bench) (s : Station) (call : RulesCall) :
    (∃ after, (ask s call).perform b = (.ok (), after)) ∨
      ∃ e, Refusal b s call e ∧ (ask s call).perform b = (.error e, b) := by
  rw [ask_eq, amend, Attempt.perform_bind_ok (Attempt.perform_get b)]
  by_cases owners : b.owners s.cell = 1
  · simp only [owners, ne_eq, not_true_eq_false, if_false]
    rcases (b.registry s.cell).amend_cases call with
      ⟨after, ran⟩ | ⟨text, fault, judged, malformed, ran⟩
    · exact .inl ⟨_, by rw [ran]; rfl⟩
    · refine .inr ⟨_, .malformed owners judged malformed, ?_⟩
      rw [ran]
      simp only [Attempt.perform_bind_ok (Attempt.perform_set b _), Attempt.perform_throw]
      rw [cells_restored]
  · exact .inr ⟨_, .shared owners, by simp only [ne_eq, owners, not_false_eq_true, if_true]; rfl⟩

end Bench

inductive BenchEvent where
  | ask (call : RulesCall)
  | copy (name : String)
  | clone (name : String)
  | nest (name mountPoint : String)
  | drop (name : String)
  | use (name : String)
  | hold
  | release
deriving DecidableEq, Repr

namespace Bench

def take (event : BenchEvent) : BenchM Unit := do
  let b ← get
  match b.station? with
  | none => pure ()
  | some s =>
    match event with
    | .ask call => ask s call
    | .copy name => copy s name
    | .clone name => set (b.clone s name)
    | .nest name mountPoint => set (b.nest s name mountPoint)
    | .drop name => set (b.drop name)
    | .use name => set { b with current := name }
    | .hold => set (b.hold s)
    | .release => set b.release

def run : List BenchEvent → Bench → List (Except ReadError Unit) × Bench
  | [], b => ([], b)
  | event :: events, b =>
    let (answer, b) := (take event).perform b
    let (answers, b) := run events b
    (answer :: answers, b)

theorem run_append (early late : List BenchEvent) (b : Bench) : run (early ++ late) b =
    ((run early b).1 ++ (run late (run early b).2).1, (run late (run early b).2).2) := by
  induction early generalizing b with
  | nil => rfl
  | cons event early ih => simp [run, ih]

theorem take_ask {b : Bench} {call : RulesCall} {e : ReadError}
    (refused : ((take (.ask call)).perform b).1 = .error e) :
    ∃ s, b.station? = some s ∧ Refusal b s call e ∧ (take (.ask call)).perform b = (.error e, b) := by
  have unfolded : ∀ s, b.station? = some s →
      (take (.ask call)).perform b = (ask s call).perform b := by
    intro s known
    rw [take, Attempt.perform_bind_ok (Attempt.perform_get b), known]
  cases known : b.station? with
  | none =>
    rw [take, Attempt.perform_bind_ok (Attempt.perform_get b), known] at refused
    cases refused
  | some s =>
    rw [unfolded s known] at refused ⊢
    rcases b.ask_cases s call with ⟨after, ran⟩ | ⟨other, why, ran⟩
    · rw [ran] at refused
      cases refused
    · rw [ran] at refused
      cases refused
      exact ⟨s, rfl, why, ran⟩

theorem length_answers (events : List BenchEvent) (b : Bench) :
    (run events b).1.length = events.length := by
  induction events generalizing b with
  | nil => rfl
  | cons event events ih => simp [run, ih]

-- Every bench, every history and every call in the midst of it: what is refused has a reason, leaves
-- every registry as it was, and is not seen in any other answer nor in what is there in the end.
theorem refusals_leave_no_trace (b : Bench) (early late : List BenchEvent) (call : RulesCall)
    {e : ReadError} (refused : ((take (.ask call)).perform (run early b).2).1 = .error e) :
    let there := (run early b).2
    (∃ s, there.station? = some s ∧ Refusal there s call e) ∧
      ((take (.ask call)).perform there).2 = there ∧
      ∃ before after final, before.length = early.length ∧
        run (early ++ late) b = (before ++ after, final) ∧
        run (early ++ .ask call :: late) b = (before ++ .error e :: after, final) := by
  intro there
  obtain ⟨s, known, why, ran⟩ := take_ask refused
  refine ⟨⟨s, known, why⟩, by rw [ran], (run early b).1, (run late there).1, (run late there).2,
    length_answers early b, run_append early late b, ?_⟩
  rw [run_append, run, ran]

-- Two rules under a pattern of which the second prefix is unknown, and a fallback while a dispatcher
-- holds the rules: nothing of them is there in the end.
theorem two_refusals_leave_no_trace :
    let early : List BenchEvent := [.ask (.register (.declare "p" "urn:x")),
      .ask (.addRules "p:a" [⟨0⟩, ⟨1⟩])]
    let middle : List BenchEvent := [.ask (.addRules "!a/?" [⟨3⟩, ⟨0⟩]), .hold]
    let late : List BenchEvent := [.release, .ask (.register (.rule "*/p:a" ⟨2⟩))]
    let spelled : RulesCall := .addRules "p:a/q:b" [⟨2⟩, ⟨4⟩]
    let unheard : RulesCall := .register (.fallback ⟨4⟩)
    let b := start {}
    let final := (run (early ++ .ask spelled :: (middle ++ .ask unheard :: late)) b).2
    final = (run (early ++ (middle ++ late)) b).2 ∧
      (final.registry 0).actions = [⟨0⟩, ⟨1⟩, ⟨3⟩, ⟨2⟩] ∧
      (final.registry 0).matching "/\x7burn:x\x7da" = [⟨0⟩, ⟨1⟩, ⟨2⟩] := by
  intro early middle late spelled unheard b final
  have misspelled : ((take (.ask spelled)).perform (run early b).2).1 =
      .error (.rule (.pattern "p:a/q:b" (.undeclaredPrefix "q"))) := by
    decide +kernel
  have held : ((take (.ask unheard)).perform (run (early ++ middle) b).2).1 = .error .sharedRules := by
    decide +kernel
  obtain ⟨-, -, _, _, _, -, kept, more⟩ :=
    refusals_leave_no_trace b early (middle ++ .ask unheard :: late) spelled misspelled
  obtain ⟨-, -, _, _, _, -, shorter, longer⟩ :=
    refusals_leave_no_trace b (early ++ middle) late unheard held
  have same : final = (run (early ++ (middle ++ late)) b).2 := by
    calc final = (run (early ++ (middle ++ .ask unheard :: late)) b).2 := by
          rw [kept]
          simp only [final, more]
      _ = (run (early ++ (middle ++ late)) b).2 := by
        rw [← List.append_assoc, ← List.append_assoc, longer, shorter]
  refine ⟨same, ?_, ?_⟩
  · rw [same]
    decide +kernel
  · rw [same]
    decide +kernel

end Bench
end XmlRules
