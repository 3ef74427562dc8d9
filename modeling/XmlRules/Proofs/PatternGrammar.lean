import XmlRules.Proofs.PatternLayout
namespace XmlRules

-- Prefixes none of whose labels holds a character that patterns use for something else.
def Prefixes.Plain (prefixes : Prefixes) : Prop :=
  ∀ label uri : String, prefixes[label]? = some uri → ∀ c ∈ label.toList,
    c ∉ [':', '/', '!', '\x7b', '\x7d'] ∧ Text.isBlank c = false

namespace Pattern
open Text

def IsForbidden (c : Char) : Prop := c ∈ ['\x7b', '\x7d', ':', '*', '?'] ∨ isBlank c = true

theorem isNameChar_iff (c : Char) : isNameChar c = true ↔ ¬ IsForbidden c := by
  simp [isNameChar, IsForbidden, and_assoc]

-- The names of the grammar. The parser need not look for a slash: it cuts at every one first.
def IsWord (cs : List Char) : Prop := cs ≠ [] ∧ ∀ c ∈ cs, c ≠ '/' ∧ ¬ IsForbidden c

theorem IsWord.isName {cs : List Char} (word : IsWord cs) : IsName cs :=
  ⟨word.1, List.all_eq_true.mpr fun c member => (isNameChar_iff c).mpr (word.2 c member).2⟩

theorem IsName.isWord {cs : List Char} (name : IsName cs) (separator : '/' ∉ cs) : IsWord cs := by
  refine ⟨name.1, fun c member => ⟨?_, ?_⟩⟩
  · rintro rfl
    exact separator member
  · exact (isNameChar_iff c).mp (List.all_eq_true.mp name.2 c member)

theorem IsWord.lacks {cs : List Char} (word : IsWord cs) {c : Char}
    (reserved : c ∈ ['/', '\x7b', '\x7d', ':', '*', '?']) : c ∉ cs := by
  intro member
  obtain ⟨separator, allowed⟩ := word.2 c member
  exact allowed (.inl ((List.mem_cons.mp reserved).resolve_left separator))

-- A segment of the grammar, and the segment it stands for.
inductive Spelled (prefixes : Prefixes) : List Char → List Char → Prop where
  | name {name : List Char} : IsWord name → Spelled prefixes name name
  | labelled {label : String} {name : List Char} {uri : String} : prefixes[label]? = some uri →
      IsWord name →
      Spelled prefixes (label.toList ++ ':' :: name) (QName.text ⟨uri, String.ofList name⟩).toList
  | written {uri name : List Char} : '\x7d' ∉ uri → IsWord name →
      Spelled prefixes ('\x7b' :: uri ++ '\x7d' :: name) ('\x7b' :: uri ++ '\x7d' :: name)

inductive Misnamed : List Char → PatternFault → Prop where
  | empty : Misnamed [] .emptyName
  | bad {name : List Char} {c : Char} : c ∈ name → IsForbidden c →
      Misnamed name (.badName (String.ofList name))

-- A segment that is none of the grammar, and what is said about it.
inductive Faulty (prefixes : Prefixes) : List Char → PatternFault → Prop where
  | empty : Faulty prefixes [] .emptySegment
  | wildcard {c : Char} : c = '*' ∨ c = '?' → Faulty prefixes [c] .wildcardInside
  | unclosed {uri : List Char} : '\x7d' ∉ uri → Faulty prefixes ('\x7b' :: uri) .unclosedUri
  | written {uri name : List Char} {fault : PatternFault} : '\x7d' ∉ uri → Misnamed name fault →
      Faulty prefixes ('\x7b' :: uri ++ '\x7d' :: name) fault
  | labelled {label name : List Char} {fault : PatternFault} : ':' ∉ label →
      label.head? ≠ some '\x7b' → Misnamed name fault → Faulty prefixes (label ++ ':' :: name) fault
  | undeclared {label name : List Char} : ':' ∉ label → label.head? ≠ some '\x7b' → IsWord name →
      prefixes[String.ofList label]? = none →
      Faulty prefixes (label ++ ':' :: name) (.undeclaredPrefix (String.ofList label))
  | name {name : List Char} {fault : PatternFault} : name ≠ [] → name ≠ ['*'] → name ≠ ['?'] →
      name.head? ≠ some '\x7b' → ':' ∉ name → Misnamed name fault → Faulty prefixes name fault

theorem checkName_of_isName {name : List Char} (valid : IsName name) : checkName name = .ok () := by
  simp [checkName, valid.1, valid.2, pure, Except.pure]

theorem Misnamed.checkName {name : List Char} {fault : PatternFault} (bad : Misnamed name fault) :
    checkName name = .error fault := by
  cases bad with
  | empty => rfl
  | @bad _ c member forbidden =>
    have filled : name ≠ [] := List.ne_nil_of_mem member
    have refused : name.all isNameChar = false := by
      rw [List.all_eq_false]
      exact ⟨c, member, fun allowed => (isNameChar_iff c).mp allowed forbidden⟩
    simp [Pattern.checkName, filled, refused, throw, throwThe, MonadExceptOf.throw]

theorem word_or_misnamed (name : List Char) (separator : '/' ∉ name) :
    IsWord name ∨ ∃ fault, Misnamed name fault := by
  by_cases empty : name = []
  · subst empty
    exact .inr ⟨_, .empty⟩
  · by_cases forbidden : ∃ c ∈ name, IsForbidden c
    · obtain ⟨c, member, forbidden⟩ := forbidden
      exact .inr ⟨_, .bad member forbidden⟩
    · refine .inl ⟨empty, fun c member => ⟨?_, fun bad => forbidden ⟨c, member, bad⟩⟩⟩
      rintro rfl
      exact separator member

theorem cutAt_append {c : Char} {l : List Char} (r : List Char) (absent : c ∉ l) :
    cutAt c (l ++ c :: r) = some (l, r) := by
  induction l with
  | nil => simp [cutAt]
  | cons d ds ih =>
    rw [List.mem_cons, not_or] at absent
    rw [List.cons_append, cutAt, if_neg (Ne.symm absent.1), ih absent.2]
    rfl

theorem cutAt_eq_none {c : Char} {cs : List Char} (absent : c ∉ cs) : cutAt c cs = none := by
  cases cut : cutAt c cs with
  | none => rfl
  | some pair => exact absurd (by simp [eq_append_of_cutAt cut]) absent

variable {prefixes : Prefixes}

theorem expandSegment_written {uri : List Char} (name : List Char) (closing : '\x7d' ∉ uri) :
    expandSegment prefixes ('\x7b' :: uri ++ '\x7d' :: name) = do
      checkName name
      return String.ofList ('\x7b' :: uri ++ '\x7d' :: name) := by
  rw [List.cons_append]
  simp only [expandSegment, cutAt_append name closing]

theorem expandSegment_open {segment : List Char} (filled : segment ≠ []) (star : segment ≠ ['*'])
    (query : segment ≠ ['?']) (opening : segment.head? ≠ some '\x7b') :
    expandSegment prefixes segment =
      match cutAt ':' segment with
      | some (label, name) => do
        checkName name
        match prefixes[String.ofList label]? with
        | none => throw (.undeclaredPrefix (String.ofList label))
        | some uri => return QName.text ⟨uri, String.ofList name⟩
      | none => do
        checkName segment
        return String.ofList segment := by
  unfold expandSegment
  split
  · exact absurd rfl filled
  · exact absurd rfl star
  · exact absurd rfl query
  · exact absurd rfl opening
  · rfl

theorem expandSegment_labelled {label : List Char} {name : List Char} (colon : ':' ∉ label)
    (opening : label.head? ≠ some '\x7b') : expandSegment prefixes (label ++ ':' :: name) = do
      checkName name
      match prefixes[String.ofList label]? with
      | none => throw (.undeclaredPrefix (String.ofList label))
      | some uri => return QName.text ⟨uri, String.ofList name⟩ := by
  have lone : ∀ c, c ≠ ':' → label ++ ':' :: name ≠ [c] := by
    intro c other same
    have member : ':' ∈ [c] := by simp [← same]
    exact other (List.mem_singleton.mp member).symm
  have head : (label ++ ':' :: name).head? ≠ some '\x7b' := by
    cases label with
    | nil => simp
    | cons c cs => exact opening
  rw [expandSegment_open (by simp) (lone _ (by decide)) (lone _ (by decide)) head,
    cutAt_append name colon]

theorem expandSegment_name {name : List Char} (filled : name ≠ []) (star : name ≠ ['*'])
    (query : name ≠ ['?']) (opening : name.head? ≠ some '\x7b') (colon : ':' ∉ name) :
    expandSegment prefixes name = do
      checkName name
      return String.ofList name := by
  rw [expandSegment_open filled star query opening, cutAt_eq_none colon]

theorem head?_ne_of_notMem {c : Char} {cs : List Char} (absent : c ∉ cs) : cs.head? ≠ some c :=
  fun first => absent (List.mem_of_head? first)

theorem IsWord.expandSegment {name : List Char} (word : IsWord name) :
    expandSegment prefixes name = .ok (String.ofList name) := by
  have lone : ∀ c ∈ ['/', '\x7b', '\x7d', ':', '*', '?'], name ≠ [c] := by
    rintro c reserved rfl
    exact word.lacks reserved (List.mem_singleton_self c)
  rw [expandSegment_name word.1 (lone _ (by decide)) (lone _ (by decide))
    (head?_ne_of_notMem (word.lacks (by decide))) (word.lacks (by decide)),
    checkName_of_isName word.isName]
  rfl

theorem IsWord.expandSegment_written {uri name : List Char} (word : IsWord name)
    (closing : '\x7d' ∉ uri) : Pattern.expandSegment prefixes ('\x7b' :: uri ++ '\x7d' :: name) =
      .ok (String.ofList ('\x7b' :: uri ++ '\x7d' :: name)) := by
  rw [Pattern.expandSegment_written name closing, checkName_of_isName word.isName]
  rfl

theorem Spelled.expandSegment (plain : prefixes.Plain) {segment expanded : List Char}
    (spelled : Spelled prefixes segment expanded) :
    expandSegment prefixes segment = .ok (String.ofList expanded) := by
  cases spelled with
  | name word => exact word.expandSegment
  | written closing word => exact word.expandSegment_written closing
  | @labelled label name uri found word =>
    have lacks : ∀ c ∈ [':', '\x7b'], c ∉ label.toList := by
      intro c reserved member
      refine (plain label uri found c member).1 ?_
      simp only [List.mem_cons, List.not_mem_nil, or_false] at reserved ⊢
      tauto
    rw [expandSegment_labelled (lacks _ (by decide)) (head?_ne_of_notMem (lacks _ (by decide))),
      checkName_of_isName word.isName, String.ofList_toList, found, String.ofList_toList]
    rfl

theorem Faulty.expandSegment {segment : List Char} {fault : PatternFault}
    (faulty : Faulty prefixes segment fault) : expandSegment prefixes segment = .error fault := by
  cases faulty with
  | empty => rfl
  | wildcard kind => rcases kind with rfl | rfl <;> rfl
  | unclosed closing => simp [Pattern.expandSegment, cutAt_eq_none closing, throw, throwThe, MonadExceptOf.throw]
  | written closing bad =>
    rw [Pattern.expandSegment_written _ closing, bad.checkName]
    rfl
  | labelled colon opening bad =>
    rw [expandSegment_labelled colon opening, bad.checkName]
    rfl
  | undeclared colon opening word missing =>
    rw [expandSegment_labelled colon opening, checkName_of_isName word.isName, missing]
    rfl
  | name filled star query opening colon bad =>
    rw [expandSegment_name filled star query opening colon, bad.checkName]
    rfl

theorem spelled_or_faulty {segment : List Char} (piece : IsPiece segment ∨ IsUnclosed segment) :
    (∃ expanded, Spelled prefixes segment expanded) ∨ ∃ fault, Faulty prefixes segment fault := by
  rcases piece with piece | ⟨uri, closing, rfl⟩
  · cases piece with
    | @braced uri name closing separator _ =>
      rcases word_or_misnamed name separator with word | ⟨fault, bad⟩
      · exact .inl ⟨_, .written closing word⟩
      · exact .inr ⟨fault, .written closing bad⟩
    | plain separator opening =>
      cases cut : cutAt ':' segment with
      | some pair =>
        obtain ⟨label, name⟩ := pair
        obtain rfl := eq_append_of_cutAt cut
        have colon := cutAt_left cut
        rw [List.mem_append, List.mem_cons, not_or, not_or] at separator
        rw [List.mem_append, not_or] at opening
        rcases word_or_misnamed name separator.2.2 with word | ⟨fault, bad⟩
        · cases found : prefixes[String.ofList label]? with
          | none => exact .inr ⟨_, .undeclared colon (head?_ne_of_notMem opening.1) word found⟩
          | some uri =>
            have spelled := Spelled.labelled found word
            rw [String.toList_ofList] at spelled
            exact .inl ⟨_, spelled⟩
        · exact .inr ⟨fault, .labelled colon (head?_ne_of_notMem opening.1) bad⟩
      | none =>
        by_cases empty : segment = []
        · subst empty
          exact .inr ⟨_, .empty⟩
        by_cases star : segment = ['*']
        · subst star
          exact .inr ⟨_, .wildcard (.inl rfl)⟩
        by_cases query : segment = ['?']
        · subst query
          exact .inr ⟨_, .wildcard (.inr rfl)⟩
        have colon : ':' ∉ segment := by
          intro member
          obtain ⟨l, r, rfl, absent⟩ := List.eq_append_cons_of_mem member
          simp [cutAt_append r absent] at cut
        rcases word_or_misnamed segment separator with word | ⟨fault, bad⟩
        · exact .inl ⟨_, .name word⟩
        · exact .inr ⟨fault, .name empty star query (head?_ne_of_notMem opening) colon bad⟩
  · exact .inr ⟨_, .unclosed closing⟩

-- What stands behind the mark: the pattern for everything, or segments between a lead and an ending.
inductive Grammar (prefixes : Prefixes) : List Char → Anchor → Form → List Char → Prop where
  | everything : Grammar prefixes ['*'] .relative .everything []
  | fixed {l : Layout} {expanded : List (List Char)} : l.segments ≠ [] → l.form ≠ .everything →
      List.Forall₂ (Spelled prefixes) l.segments expanded →
      Grammar prefixes l.text l.lead.anchor l.form
        ((if l.lead = .root then ['/'] else []) ++ List.intercalate ['/'] expanded)

theorem assemble_toList (lead : Lead) (segments : List String) :
    (assemble lead.anchor segments).toList =
      (if lead = .root then ['/'] else []) ++ List.intercalate ['/'] (segments.map String.toList) := by
  cases lead <;> simp [assemble, Lead.anchor, String.toList_intercalate]

-- The parser reads a segment of the grammar only if its pieces are cut as the grammar cuts them.
theorem spelled_of_expandSegment (braceless : ∀ label uri : String, prefixes[label]? = some uri →
      '\x7b' ∉ label.toList) {segment : List Char} {s : String}
    (accepted : expandSegment prefixes segment = .ok s) (whole : Path.segments segment = [segment]) :
    Spelled prefixes segment s.toList := by
  have expansion := expansion_of_expandSegment accepted
  generalize s.toList = expanded at expansion
  cases expansion with
  | written closing valid =>
    exact .written closing (valid.isWord (no_separator_behind_uri closing valid whole))
  | @labelled label name uri found valid =>
    have opening : '\x7b' ∉ label ++ ':' :: name := by
      have := braceless _ _ found
      rw [String.toList_ofList] at this
      simp [this, valid.no_brace.1]
    have separator := no_separator_of_whole opening whole
    rw [List.mem_append, List.mem_cons, not_or, not_or] at separator
    have spelled := Spelled.labelled found (valid.isWord separator.2.2)
    rwa [String.toList_ofList] at spelled
  | plain valid => exact .name (valid.isWord (no_separator_of_whole valid.no_brace.1 whole))

theorem Spelled.isPiece (plain : prefixes.Plain) {segment expanded : List Char}
    (spelled : Spelled prefixes segment expanded) : IsPiece segment := by
  cases spelled with
  | name word => exact .plain (word.lacks (by decide)) (word.lacks (by decide))
  | written closing word => exact .braced closing (word.lacks (by decide)) (word.lacks (by decide))
  | @labelled label name uri found word =>
    have lacks : ∀ c ∈ ['/', '\x7b'], c ∉ label.toList ++ ':' :: name := by
      intro c reserved member
      simp only [List.mem_cons, List.not_mem_nil, or_false] at reserved
      rw [List.mem_append, List.mem_cons] at member
      rcases member with label | rfl | name
      · exact (plain _ _ found c label).1 (by simp only [List.mem_cons]; tauto)
      · exact absurd reserved (by decide)
      · exact word.lacks (by simp only [List.mem_cons]; tauto) name
    exact .plain (lacks _ (by decide)) (lacks _ (by decide))

theorem Spelled.starts (plain : prefixes.Plain) {segment expanded : List Char}
    (spelled : Spelled prefixes segment expanded) : ∃ c cs, segment = c :: cs ∧ c ≠ '/' ∧
      isBlank c = false ∧ (c = '*' → ∃ d ds, cs = d :: ds ∧ d ≠ '/') := by
  cases spelled with
  | name word =>
    obtain ⟨c, cs, rfl⟩ := List.exists_cons_of_ne_nil word.1
    obtain ⟨separator, allowed⟩ := word.2 c (by simp)
    refine ⟨c, cs, rfl, separator, ?_, fun star => absurd (.inl (by simp [star])) allowed⟩
    cases blank : isBlank c with
    | false => rfl
    | true => exact absurd (.inr blank) allowed
  | written closing word => exact ⟨_, _, rfl, by decide, by decide, by simp⟩
  | @labelled label name uri found word =>
    have allowed := plain _ _ found
    cases letters : label.toList with
    | nil => exact ⟨_, _, rfl, by decide, by decide, by simp⟩
    | cons c cs =>
      rw [letters] at allowed
      obtain ⟨reserved, blank⟩ := allowed c (by simp)
      refine ⟨c, _, rfl, by rintro rfl; exact reserved (by decide), blank, fun _ => ?_⟩
      cases cs with
      | nil => exact ⟨_, _, rfl, by decide⟩
      | cons d ds =>
        refine ⟨d, _, rfl, ?_⟩
        rintro rfl
        exact (allowed '/' (by simp)).1 (by decide)

theorem Spelled.ends {segment expanded : List Char} (spelled : Spelled prefixes segment expanded) :
    ∃ front name, segment = front ++ name ∧ IsWord name := by
  cases spelled with
  | name word => exact ⟨[], _, rfl, word⟩
  | @labelled label name _ _ word => exact ⟨label.toList ++ [':'], name, by simp, word⟩
  | @written uri name _ word => exact ⟨'\x7b' :: uri ++ ['\x7d'], name, by simp, word⟩

theorem Spelled.last {segment expanded : List Char} (spelled : Spelled prefixes segment expanded) :
    segment ≠ [] ∧ segment ≠ ['?'] ∧ segment ≠ ['*'] ∧ segment.getLast? ≠ some '/' := by
  obtain ⟨front, name, shape, word⟩ := spelled.ends
  have filled : segment ≠ [] := by simp [shape, word.1]
  have other : ∀ c ∈ ['?', '*', '/'], segment.getLast? ≠ some c := by
    intro c reserved last
    rw [shape, List.getLast?_append_of_ne_nil _ word.1] at last
    refine word.lacks (c := c) ?_ (List.mem_of_getLast? last)
    simp only [List.mem_cons, List.not_mem_nil, or_false] at reserved ⊢
    tauto
  refine ⟨filled, ?_, ?_, other _ (by decide)⟩
  · rintro rfl
    exact other '?' (by decide) rfl
  · rintro rfl
    exact other '*' (by decide) rfl

theorem exists_of_mem_left {α β : Type} {R : α → β → Prop} {xs : List α} {ys : List β}
    (pairs : List.Forall₂ R xs ys) {x : α} (member : x ∈ xs) : ∃ y ∈ ys, R x y :=
  exists_of_mem_right pairs.flip member

theorem head_intercalate {ss : List (List Char)} {s : List Char} (first : ss.head? = some s) :
    ∃ behind, List.intercalate ['/'] ss = s ++ behind := by
  obtain ⟨rest, rfl⟩ := List.head?_eq_some_iff.mp first
  cases rest with
  | nil => exact ⟨[], by simp⟩
  | cons t ts => exact ⟨_, by rw [List.intercalate_cons_cons, List.append_assoc]⟩

theorem starts_of_spelled (plain : prefixes.Plain) {l : Layout} {expanded : List (List Char)}
    (filled : l.segments ≠ []) (spelled : List.Forall₂ (Spelled prefixes) l.segments expanded)
    (lead : l.lead = .bare) : ∃ c cs, l.text = c :: cs ∧ c ≠ '/' ∧ isBlank c = false ∧
      (c = '*' → ∃ d ds, cs = d :: ds ∧ d ≠ '/') := by
  obtain ⟨s, ss, shape⟩ := List.exists_cons_of_ne_nil filled
  obtain ⟨e, -, related⟩ := exists_of_mem_left spelled (by simp [shape] : s ∈ l.segments)
  obtain ⟨c, cs, rfl, separator, blank, star⟩ := related.starts plain
  have head : l.segments.head? = some (c :: cs) := by rw [shape]; rfl
  obtain ⟨behind, joined⟩ := head_intercalate head
  refine ⟨c, cs ++ (behind ++ l.form.ending ++ List.replicate l.slashes '/'), ?_, separator,
    blank, fun same => ?_⟩
  · simp [Layout.text, Layout.inner, lead, Lead.text, joined]
  · obtain ⟨d, ds, rfl, other⟩ := star same
    exact ⟨d, _, rfl, other⟩

theorem proper_of_spelled (plain : prefixes.Plain) {l : Layout} {expanded : List (List Char)}
    (filled : l.segments ≠ []) (form : l.form ≠ .everything)
    (spelled : List.Forall₂ (Spelled prefixes) l.segments expanded) : l.Proper := by
  have each : ∀ s ∈ l.segments, ∃ e, Spelled prefixes s e := by
    intro s member
    obtain ⟨e, -, related⟩ := exists_of_mem_left spelled member
    exact ⟨e, related⟩
  refine ⟨form, filled, ?_, ?_, ?_, ?_, ?_⟩
  · intro s member
    obtain ⟨e, related⟩ := each s (List.dropLast_subset _ member)
    exact related.isPiece plain
  · intro s member
    obtain ⟨e, related⟩ := each s (List.mem_of_getLast? member)
    exact .inl (related.isPiece plain)
  · intro _ s member
    obtain ⟨e, related⟩ := each s (List.mem_of_getLast? member)
    exact related.last
  · intro lead
    obtain ⟨c, cs, text, separator, -, star⟩ := starts_of_spelled plain filled spelled lead
    rw [text]
    refine ⟨by simpa using separator, fun anywhere => ?_⟩
    rw [List.cons_prefix_cons] at anywhere
    obtain ⟨d, ds, rfl, other⟩ := star anywhere.1.symm
    rw [List.cons_prefix_cons] at anywhere
    exact other anywhere.2.1.symm
  · intro c head
    cases lead : l.lead with
    | root =>
      obtain rfl : '/' = c := by simpa [Layout.text, lead, Lead.text] using head
      decide
    | anywhere =>
      obtain rfl : '*' = c := by simpa [Layout.text, lead, Lead.text] using head
      decide
    | bare =>
      obtain ⟨d, cs, text, -, blank, -⟩ := starts_of_spelled plain filled spelled lead
      rw [text] at head
      cases head
      exact blank

theorem mapM_eq_ok {α β ε : Type} {f : α → Except ε β} {xs : List α} {ys : List β}
    (pairs : List.Forall₂ (fun x y => f x = .ok y) xs ys) : xs.mapM f = .ok ys := by
  induction pairs with
  | nil => rfl
  | cons first _ ih =>
    rw [List.mapM_cons, first, ih]
    rfl

theorem mapM_eq_error {α β ε : Type} {f : α → Except ε β} {good : List α} {bad : α} {rest : List α}
    {e : ε} (fine : ∀ x ∈ good, ∃ y, f x = .ok y) (refused : f bad = .error e) :
    (good ++ bad :: rest).mapM f = .error e := by
  induction good with
  | nil =>
    rw [List.nil_append, List.mapM_cons, refused]
    rfl
  | cons x xs ih =>
    obtain ⟨y, first⟩ := fine x (by simp)
    rw [List.cons_append, List.mapM_cons, first, ih fun z member => fine z (by simp [member])]
    rfl

theorem grammar_of_parse (plain : prefixes.Plain) {source : String} {p : Pattern}
    (accepted : parse prefixes source = .ok p) : p.source = source ∧ ∃ rest,
      Marked p.universal (trim source.toList) rest ∧
        Grammar prefixes rest p.anchor p.form p.fixed.toList := by
  obtain ⟨same, rest, marked, shape⟩ := layout_of_parse accepted
  refine ⟨same, rest, marked, ?_⟩
  rcases shape with ⟨rfl, anchor, form, fixed⟩ | ⟨l, expanded, rfl, filled, whole, ran, anchor, form, other, fixed⟩
  · rw [anchor, form, fixed]
    exact .everything
  · have braceless : ∀ label uri : String, prefixes[label]? = some uri → '\x7b' ∉ label.toList :=
      fun label uri found member => (plain label uri found _ member).1 (by decide)
    have spelled : List.Forall₂ (Spelled prefixes) l.segments (expanded.map String.toList) := by
      rw [List.forall₂_map_right_iff]
      refine List.Forall₂.imp ?_ ((List.forall₂_and_left _ _).mpr ⟨whole, ran⟩)
      rintro w s ⟨single, read⟩
      exact spelled_of_expandSegment braceless read single
    rw [anchor, form, fixed, assemble_toList]
    exact .fixed filled other spelled

theorem parse_of_grammar (plain : prefixes.Plain) {source : String} {p : Pattern}
    (same : p.source = source) {rest : List Char} (marked : Marked p.universal (trim source.toList) rest)
    (grammar : Grammar prefixes rest p.anchor p.form p.fixed.toList) :
    parse prefixes source = .ok p := by
  obtain ⟨text, universal, anchor, form, fixed⟩ := p
  simp only at same marked grammar
  subst same
  generalize letters : fixed.toList = cs at grammar
  cases grammar with
  | everything =>
    obtain rfl := String.toList_eq_nil_iff.mp letters
    unfold parse
    rw [readMarker_of_marked marked (by simp; decide)]
    rfl
  | @fixed l expanded filled other spelled =>
    have ran : l.segments.mapM (expandSegment prefixes) = .ok (expanded.map String.ofList) := by
      apply mapM_eq_ok
      rw [List.forall₂_map_right_iff]
      exact spelled.imp fun w s related => related.expandSegment plain
    have assembled : assemble l.lead.anchor (expanded.map String.ofList) = fixed := by
      rw [← String.toList_inj, assemble_toList, letters]
      simp
    rw [parse_of_proper (proper_of_spelled plain filled other spelled) marked, ran]
    simp [assembled, bind, Except.bind, pure, Except.pure]

theorem Misnamed.declared {name : List Char} {label : String} :
    ¬ Misnamed name (.undeclaredPrefix label) := nofun

theorem undeclared_iff {segment : List Char} {fault : PatternFault}
    (faulty : Faulty prefixes segment fault) (label : String) :
    fault = .undeclaredPrefix label ↔ ∃ name, segment = label.toList ++ ':' :: name ∧
      ':' ∉ label.toList ∧ label.toList.head? ≠ some '\x7b' ∧ IsWord name ∧
        prefixes[label]? = none := by
  constructor
  · rintro rfl
    cases faulty with
    | undeclared colon opening word missing =>
      exact ⟨_, by rw [String.toList_ofList], by rwa [String.toList_ofList],
        by rwa [String.toList_ofList], word, missing⟩
    | written _ bad => exact absurd bad Misnamed.declared
    | labelled _ _ bad => exact absurd bad Misnamed.declared
    | name _ _ _ _ _ bad => exact absurd bad Misnamed.declared
  · rintro ⟨name, rfl, colon, opening, word, missing⟩
    have read := (Faulty.undeclared colon opening word
      (by rwa [String.ofList_toList])).expandSegment.symm.trans faulty.expandSegment
    rw [String.ofList_toList] at read
    exact (Except.error.inj read).symm

-- The parser accepts exactly the grammar and returns what the grammar says. Where nothing but
-- segments is at fault, it refuses a text for its first segment that the grammar does not have.
theorem parse_grammar (plain : prefixes.Plain) (source : String) :
    (∀ p, parse prefixes source = .ok p ↔ p.source = source ∧ ∃ rest,
      Marked p.universal (trim source.toList) rest ∧
        Grammar prefixes rest p.anchor p.form p.fixed.toList) ∧
    ∀ (universal : Bool) (l : Layout), Marked universal (trim source.toList) l.text → l.Proper →
      ∀ good bad rest, l.segments = good ++ bad :: rest →
        (∀ s ∈ good, ∃ expanded, Spelled prefixes s expanded) →
        (¬ ∃ expanded, Spelled prefixes bad expanded) →
        ∃ fault, Faulty prefixes bad fault ∧ parse prefixes source = .error fault ∧
          ∀ label, fault = .undeclaredPrefix label ↔ ∃ name,
            bad = label.toList ++ ':' :: name ∧ ':' ∉ label.toList ∧
              label.toList.head? ≠ some '\x7b' ∧ IsWord name ∧ prefixes[label]? = none := by
  refine ⟨fun p => ⟨grammar_of_parse plain, ?_⟩, ?_⟩
  · rintro ⟨same, rest, marked, grammar⟩
    exact parse_of_grammar plain same marked grammar
  · intro universal l marked proper good bad rest shape fine first
    have piece := proper.piece bad (by simp [shape])
    obtain ⟨fault, faulty⟩ := (spelled_or_faulty piece).resolve_left first
    refine ⟨fault, faulty, ?_, undeclared_iff faulty⟩
    have ran : l.segments.mapM (expandSegment prefixes) = .error fault := by
      rw [shape]
      refine mapM_eq_error (fun s member => ?_) faulty.expandSegment
      obtain ⟨expanded, spelled⟩ := fine s member
      exact ⟨_, spelled.expandSegment plain⟩
    rw [parse_of_proper proper marked, ran]
    rfl

theorem plain_insert {label uri : String} (allowed : ∀ c ∈ label.toList,
    c ∉ [':', '/', '!', '\x7b', '\x7d'] ∧ isBlank c = false) :
    Prefixes.Plain (({} : Prefixes).insert label uri) := by
  intro l u found
  obtain ⟨rfl, -⟩ := Prefixes.of_insert found
  exact allowed

theorem parse_grammar_undeclared :
    let bound : Prefixes := ({} : Prefixes).insert "p" "urn:a/b"
    let p : Pattern := ⟨"! p:x/\x7bu:\x7by\x7dz/?// ", true, .relative, .anyChild,
      "\x7burn:a/b\x7dx/\x7bu:\x7by\x7dz"⟩
    Prefixes.Plain bound ∧ parse bound p.source = .ok p ∧
      (∃ rest, Marked true (trim p.source.toList) rest ∧
        Grammar bound rest p.anchor p.form p.fixed.toList) ∧
      parse bound "/p:x/q:y/*/z" = .error (.undeclaredPrefix "q") := by
  intro bound p
  have plain : Prefixes.Plain bound := by
    apply plain_insert
    intro c member
    obtain rfl : c = 'p' := by simpa using member
    decide
  have accepted : parse bound p.source = .ok p := by decide +kernel
  refine ⟨plain, accepted, (((parse_grammar plain _).1 p).mp accepted).2, ?_⟩
  let l : Layout := ⟨.root, [['p', ':', 'x'], ['q', ':', 'y'], ['*'], ['z']], .exact, 0⟩
  have marked : Marked false (trim "/p:x/q:y/*/z".toList) l.text := ⟨by decide +kernel, by decide⟩
  have pieces : ∀ s ∈ l.segments, '/' ∉ s ∧ '\x7b' ∉ s := by decide
  have proper : l.Proper := by
    refine ⟨nofun, nofun, fun s member => ?_, fun s last => ?_, fun _ s last => ?_, nofun,
      fun c first => ?_⟩
    · obtain ⟨separator, opening⟩ := pieces s (List.dropLast_subset _ member)
      exact .plain separator opening
    · obtain ⟨separator, opening⟩ := pieces s (List.mem_of_getLast? last)
      exact .inl (.plain separator opening)
    · cases last
      decide
    · cases first
      decide
  have good : ∀ s ∈ [['p', ':', 'x']], ∃ expanded, Spelled bound s expanded := by
    intro s member
    obtain rfl := List.mem_singleton.mp member
    have found : bound["p"]? = some "urn:a/b" := by decide +kernel
    have word : IsWord ['x'] := IsName.isWord ⟨by decide, by decide⟩ (by decide)
    exact ⟨_, .labelled found word⟩
  have bad : ¬ ∃ expanded, Spelled bound ['q', ':', 'y'] expanded := by
    rintro ⟨expanded, spelled⟩
    have refused : expandSegment bound ['q', ':', 'y'] = .error (.undeclaredPrefix "q") := by
      decide +kernel
    exact nomatch (spelled.expandSegment plain).symm.trans refused
  obtain ⟨fault, -, refused, undeclared⟩ :=
    (parse_grammar plain _).2 false l marked proper _ _ _ rfl good bad
  have word : IsWord ['y'] := IsName.isWord ⟨by decide, by decide⟩ (by decide)
  have missing : bound["q"]? = none := by decide +kernel
  rw [refused, (undeclared "q").mpr ⟨['y'], rfl, by decide, by decide, word, missing⟩]

end Pattern
end XmlRules
