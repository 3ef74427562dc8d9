import XmlRules.Proofs.StructuralMatch
import XmlRules.Proofs.WrittenText
namespace XmlRules
open Markup

namespace Markup

theorem readAttribute_unchecked {isSeen : Bytes → Bool} {b : UInt8} {bytes : Bytes}
    {parts : RawAttribute × Bytes} (read : readAttribute isSeen b bytes = .ok parts) :
    readAttribute (fun _ => false) b bytes = .ok parts := by
  unfold readAttribute at read ⊢
  obtain ⟨written, equal, read⟩ := Reading.ok_of_bind read
  rw [equal]
  by_cases twice : isSeen (b :: keyTail bytes) = true
  · rw [if_pos twice] at read
    cases read
  · rw [if_neg twice] at read
    exact read

theorem attributesFrom_unchecked {seen other : List Bytes} {taken : Nat} {bytes : Bytes}
    {given : List RawAttribute} (read : attributesFrom true seen taken bytes = (given, none)) :
    attributesFrom false other taken bytes = (given, none) := by
  induction bytes generalizing seen other taken given with
  | nil => exact read
  | cons b bytes ih =>
    unfold attributesFrom at read ⊢
    cases taken with
    | succ left => exact ih read
    | zero =>
      simp only [Bool.false_and] at read ⊢
      by_cases blank : isSpace b
      · rw [if_pos blank] at read ⊢
        exact ih read
      · rw [if_neg blank] at read ⊢
        cases first : readAttribute (fun key => true && seen.contains key) b bytes with
        | error fault =>
          rw [first] at read
          cases read
        | ok parts =>
          rw [first] at read
          rw [readAttribute_unchecked first]
          cases later : attributesFrom true (parts.1.key :: seen) (bytes.length - parts.2.length) bytes with
          | mk more fault =>
            simp only [later] at read
            cases read
            simp only [ih later]

end Markup

namespace Tag

theorem opening_parts {scopes inner : Scopes} {bytes : Bytes} {tag : Tag}
    (opened : opening scopes true bytes = .ok (inner, tag)) :
    ∃ (given : List RawAttribute) (declared : List RawBinding) (kept : Tag) (written : String),
      given.filterMapM (fun a => binding a.key a.value) = .ok declared ∧
      inner = scopes.enter declared ∧
      given.foldlM (take inner true) { name := ⟨"", ""⟩ } = .ok kept ∧
      tag.declared = kept.declared ∧ text (tagName bytes) = .ok written ∧
      resolve inner true (tagName bytes) written = .ok tag.name := by
  obtain ⟨declared, bound, opened⟩ := Reading.ok_of_bind opened
  obtain ⟨own, whole, told⟩ := Reading.ok_of_bind opened
  cases told
  unfold read at whole
  cases attributes : readAttributes true (tagRest bytes) with
  | mk given fault =>
    rw [attributes] at whole
    obtain ⟨kept, taken, whole⟩ := Reading.ok_of_bind whole
    cases fault with
    | some fault => cases whole
    | none =>
      obtain ⟨written, spelled, whole⟩ := Reading.ok_of_bind whole
      obtain ⟨name, resolved, told⟩ := Reading.ok_of_bind whole
      cases told
      refine ⟨given, declared, kept, written, ?_, rfl, taken, rfl, spelled, resolved⟩
      have unchecked : readAttributes false (tagRest bytes) = (given, none) :=
        attributesFrom_unchecked attributes
      unfold bindings at bound
      rw [unchecked] at bound
      cases same : given.filterMapM fun a => binding a.key a.value with
      | error fault =>
        rw [same] at bound
        cases bound
      | ok raw =>
        rw [same] at bound
        cases bound
        rfl

end Tag

-- A declaration as the reader keeps it and as the context is told of it.
def Told (raw : RawBinding) (declared : String × String) : Prop :=
  decode? raw.1 = some declared.1 ∧ Tag.value raw.2 = .ok declared.2

namespace Bindings

-- All but that of `xml`, which can say nothing new.
def proper (declared : List (String × String)) : List (String × String) :=
  declared.filter (·.1 ≠ "xml")

theorem lookup_proper (declared : List (String × String)) {label : String} (other : label ≠ "xml") :
    (proper declared).lookup label = declared.lookup label := by
  induction declared with
  | nil => rfl
  | cons entry declared ih =>
    obtain ⟨own, uri⟩ := entry
    unfold proper at ih ⊢
    by_cases reserved : own = "xml"
    · have differs : (label == own) = false := by simpa [reserved] using other
      rw [List.filter_cons_of_neg (by simp [reserved]), ih, List.lookup_cons, differs]
    · rw [List.filter_cons_of_pos (by simp [reserved]), List.lookup_cons, List.lookup_cons, ih]

end Bindings

def Matches (level : List RawBinding) (scope : List (String × String)) : Prop :=
  List.Forall₂ Told level (Bindings.proper scope).reverse

def Agree (s : Scopes) (b : Bindings) : Prop := List.Forall₂ Matches s.levels b.scopes

theorem lookup_told {level : List RawBinding} {declared : List (String × String)}
    (told : List.Forall₂ Told level declared) (label : String) :
    Option.Rel (fun uri value => Tag.value uri = .ok value)
      (level.lookup (encode label.toList)) (declared.lookup label) := by
  induction told with
  | nil => exact .none
  | @cons raw entry level declared first _ ih =>
    obtain ⟨written, uri⟩ := raw
    obtain ⟨own, value⟩ := entry
    obtain ⟨decoded, means⟩ := first
    obtain rfl : written = encode own.toList := decode?_eq_some_iff.mp decoded
    rw [List.lookup_cons, List.lookup_cons]
    by_cases same : label = own
    · subst same
      rw [beq_self_eq_true, beq_self_eq_true]
      exact .some means
    · have differs : encode label.toList ≠ encode own.toList := fun equal =>
        same (String.toList_inj.mp (encode_injective equal))
      rw [beq_false_of_ne differs, beq_false_of_ne same]
      exact ih

theorem Agree.lookup {s : Scopes} {b : Bindings} (agree : Agree s b) {label : String}
    (other : label ≠ "xml") : Option.Rel (fun uri value => Tag.value uri = .ok value)
      (s.levels.flatten.lookup (encode label.toList)) (b.declared? label) := by
  obtain ⟨levels⟩ := s
  obtain ⟨scopes⟩ := b
  unfold Bindings.declared?
  change List.Forall₂ Matches levels scopes at agree
  induction agree with
  | nil => exact .none
  | @cons level scope levels scopes first _ ih =>
    have here := lookup_told first label
    rw [Bindings.proper, ← List.filter_reverse, ← Bindings.proper, Bindings.lookup_proper _ other] at here
    rw [List.flatten_cons, List.lookup_append, List.findSome?_cons]
    generalize level.lookup (encode label.toList) = kept, scope.reverse.lookup label = said at here ⊢
    cases here with
    | none => exact ih
    | some means => exact .some means

theorem declaredPrefix?_short {key label : Bytes} (short : key.length = 5)
    (found : declaredPrefix? key = some label) : label = [] := by
  have none : key.drop (ascii "xmlns").length = [] := List.drop_eq_nil_of_le (Nat.le_of_eq short)
  unfold declaredPrefix? at found
  dsimp only at found
  rw [none] at found
  split at found
  · exact (Option.some.inj found).symm
  · cases found

theorem binding_cases {key uri label : Bytes} {entry : Option RawBinding}
    (found : declaredPrefix? key = some label) (bound : binding key uri = .ok entry) :
    label ≠ ascii "xml" ∧ entry = some (label, uri) ∨ label = ascii "xml" ∧ entry = none := by
  unfold binding at bound
  rw [found] at bound
  dsimp only at bound
  by_cases short : key.length = 5
  · rw [if_pos short] at bound
    cases bound
    cases declaredPrefix?_short short found
    exact .inl ⟨by decide, rfl⟩
  · rw [if_neg short] at bound
    by_cases reserved : label = ascii "xml"
    · rw [if_pos reserved] at bound
      split at bound
      · cases bound
        exact .inr ⟨reserved, rfl⟩
      · cases bound
    · rw [if_neg reserved] at bound
      refine .inl ⟨reserved, ?_⟩
      iterate 3
        split at bound
        · cases bound
      cases bound
      rfl

theorem decode?_of_text {bytes : Bytes} {s : String} (read : Tag.text bytes = .ok s) :
    decode? bytes = some s := by
  unfold Tag.text at read
  split at read
  · cases read
    assumption
  · cases read

theorem told_of_take {scopes : Scopes} {a : RawAttribute} {tag next : Tag}
    {entry : Option RawBinding} (taken : Tag.take scopes true tag a = .ok next)
    (bound : binding a.key a.value = .ok entry) : ∃ more, next.declared = tag.declared ++ more ∧
      List.Forall₂ Told entry.toList (Bindings.proper more) := by
  unfold Tag.take at taken
  obtain ⟨written, _, taken⟩ := Reading.ok_of_bind taken
  obtain ⟨value, means, taken⟩ := Reading.ok_of_bind taken
  rw [if_pos rfl] at taken
  cases found : declaredPrefix? a.key with
  | none =>
    unfold binding at bound
    rw [found] at taken bound
    obtain ⟨q, _, taken⟩ := Reading.ok_of_bind taken
    cases taken
    cases bound
    exact ⟨[], (List.append_nil _).symm, .nil⟩
  | some label =>
    rw [found] at taken
    obtain ⟨own, spelled, taken⟩ := Reading.ok_of_bind taken
    cases taken
    have decoded := decode?_of_text spelled
    refine ⟨[(own, value)], rfl, ?_⟩
    rcases binding_cases found bound with ⟨unreserved, rfl⟩ | ⟨rfl, rfl⟩
    · have other : own ≠ "xml" := by
        rintro rfl
        exact unreserved (decode?_eq_some_iff.mp decoded)
      rw [Bindings.proper, List.filter_cons_of_pos (by simpa using other)]
      exact .cons ⟨decoded, means⟩ .nil
    · cases decoded.symm.trans (decode?_encode "xml".toList)
      exact .nil

theorem told_of_takes {scopes : Scopes} {given : List RawAttribute} {tag last : Tag}
    {declared : List RawBinding} (taken : given.foldlM (Tag.take scopes true) tag = .ok last)
    (bound : given.filterMapM (fun a => binding a.key a.value) = .ok declared) :
    ∃ more, last.declared = tag.declared ++ more ∧
      List.Forall₂ Told declared (Bindings.proper more) := by
  induction given generalizing tag declared with
  | nil =>
    cases taken
    cases bound
    exact ⟨[], (List.append_nil _).symm, .nil⟩
  | cons a given ih =>
    rw [List.foldlM_cons] at taken
    rw [List.filterMapM_cons] at bound
    obtain ⟨next, here, taken⟩ := Reading.ok_of_bind taken
    obtain ⟨entry, kept, bound⟩ := Reading.ok_of_bind bound
    obtain ⟨first, starts, agrees⟩ := told_of_take here kept
    have later : ∃ rest, given.filterMapM (fun a => binding a.key a.value) = .ok rest ∧
        declared = entry.toList ++ rest := by
      cases entry with
      | none => exact ⟨declared, bound, rfl⟩
      | some entry =>
        obtain ⟨rest, read, told⟩ := Reading.ok_of_bind bound
        cases told
        exact ⟨rest, read, rfl⟩
    obtain ⟨rest, read, rfl⟩ := later
    obtain ⟨more, ends, follows⟩ := ih taken read
    refine ⟨first ++ more, by rw [ends, starts, List.append_assoc], ?_⟩
    rw [Bindings.proper, List.filter_append]
    exact List.rel_append agrees follows

theorem Agree.enter {s inner : Scopes} {b : Bindings} {bytes : Bytes} {tag : Tag} (agree : Agree s b)
    (opened : Tag.opening s true bytes = .ok (inner, tag)) : Agree inner (b.enter tag.declared) := by
  obtain ⟨given, declared, kept, written, bound, rfl, taken, same, _⟩ := Tag.opening_parts opened
  obtain ⟨more, whole, told⟩ := told_of_takes taken bound
  rw [same, whole, List.nil_append]
  exact .cons (List.rel_reverse told) agree

theorem Agree.leave {s : Scopes} {b : Bindings} (agree : Agree s b) : Agree s.leave b.leave := by
  obtain ⟨levels⟩ := s
  obtain ⟨scopes⟩ := b
  change List.Forall₂ Matches levels scopes at agree
  cases agree with
  | nil => exact .nil
  | cons _ rest => exact rest

theorem Scopes.lookup?_eq (s : Scopes) {label : Bytes} (other : label ≠ ascii "xmlns")
    (unreserved : label ≠ ascii "xml") : s.lookup? label = s.levels.flatten.lookup label := by
  unfold Markup.Scopes.lookup?
  rw [List.lookup_append, List.lookup_cons, beq_false_of_ne other, List.lookup_cons,
    beq_false_of_ne unreserved]
  exact Option.or_none

theorem Agree.lookup_xml {s : Scopes} {b : Bindings} (agree : Agree s b) :
    s.levels.flatten.lookup (ascii "xml") = none := by
  obtain ⟨levels⟩ := s
  obtain ⟨scopes⟩ := b
  change List.Forall₂ Matches levels scopes at agree
  induction agree with
  | nil => rfl
  | @cons level scope levels scopes first _ ih =>
    have here := lookup_told first "xml"
    have none : (Bindings.proper scope).reverse.lookup "xml" = none := by
      rw [List.lookup_eq_none_iff]
      intro entry member
      have kept := (List.mem_filter.mp (List.mem_reverse.mp member)).2
      exact bne_iff_ne.mpr (Ne.symm (of_decide_eq_true kept))
    rw [none] at here
    rw [List.flatten_cons, List.lookup_append]
    change Option.Rel _ (level.lookup (ascii "xml")) _ at here
    generalize level.lookup (ascii "xml") = kept at here ⊢
    cases here
    exact ih

theorem text_of_value {uri : Bytes} {value : String} (means : Tag.value uri = .ok value) :
    ∃ space, decode? uri = some space ∧ unescape space.toList = .ok value.toList := by
  unfold Tag.value at means
  obtain ⟨space, read, means⟩ := Reading.ok_of_bind means
  unfold Tag.content at read
  split at read
  · rename_i decoded
    cases read
    refine ⟨space, decoded, ?_⟩
    split at means
    · rename_i meant unescaped
      cases means
      rw [unescaped, String.toList_ofList]
    · cases means
  · cases read

theorem value_eq_empty {uri : Bytes} {value : String} (means : Tag.value uri = .ok value) :
    value = "" ↔ uri = [] := by
  obtain ⟨space, decoded, unescaped⟩ := text_of_value means
  rw [decode?_eq_some_iff.mp decoded, encode_eq_nil_iff, ← String.toList_eq_nil_iff]
  exact (refers_of_unescape unescaped).eq_nil_iff

-- A prefix that an element can bear is resolved alike on both sides, up to references. Nothing is
-- bound to it when it is undeclared.
theorem Agree.resolve? {s : Scopes} {b : Bindings} (agree : Agree s b) {label : String}
    (other : label ≠ "xmlns") :
    (s.lookup? (encode label.toList) = none ∨ s.lookup? (encode label.toList) = some []) ∧
        b.resolve? label = none ∨
      ∃ first more value, s.lookup? (encode label.toList) = some (first :: more) ∧
        Tag.value (first :: more) = .ok value ∧ b.resolve? label = some value := by
  unfold Bindings.resolve?
  by_cases reserved : label = "xml"
  · subst reserved
    have found : s.lookup? (encode "xml".toList) = some xmlUri := by
      change s.lookup? (ascii "xml") = _
      unfold Markup.Scopes.lookup?
      rw [List.lookup_append, agree.lookup_xml]
      rfl
    exact .inr ⟨_, _, Bindings.xmlUri, found, by decide +kernel, if_pos rfl⟩
  · have differs {name : String} (distinct : label ≠ name) : encode label.toList ≠ encode name.toList :=
      fun same => distinct (String.toList_inj.mp (encode_injective same))
    rw [if_neg reserved, Scopes.lookup?_eq s (differs other) (differs reserved)]
    have alike := agree.lookup reserved
    generalize s.levels.flatten.lookup (encode label.toList) = kept, b.declared? label = said at alike ⊢
    cases alike with
    | none => exact .inl ⟨.inl rfl, rfl⟩
    | @some uri value means =>
      have same := value_eq_empty means
      cases uri with
      | nil =>
        refine .inl ⟨.inr rfl, ?_⟩
        rw [Option.filter_some, if_neg (by simp [same.mpr rfl])]
      | cons first more =>
        refine .inr ⟨first, more, value, rfl, means, ?_⟩
        rw [Option.filter_some, if_pos (by simpa using mt same.mp (List.cons_ne_nil _ _))]

theorem Tag.text_encode (cs : List Char) : text (encode cs) = .ok (String.ofList cs) := by
  unfold text
  rw [decode?_encode]

theorem space_of_bound {uri : Bytes} {space value : String} (read : Tag.text uri = .ok space)
    (means : Tag.value uri = .ok value) : unescape space.toList = .ok value.toList := by
  obtain ⟨same, decoded, unescaped⟩ := text_of_value means
  cases decoded.symm.trans (decode?_of_text read)
  exact unescaped

theorem Agree.expand?_bare {s : Scopes} {b : Bindings} (agree : Agree s b) {written shown : String}
    {q : QName} (bare : Text.cutAt ':' written.toList = none)
    (resolved : Tag.resolve s true (encode written.toList) shown = .ok q) :
    ∃ meant, unescape q.space.toList = .ok meant ∧
      b.expand? written = some (QName.text ⟨String.ofList meant, q.name⟩) := by
  unfold Tag.resolve Markup.Scopes.resolve at resolved
  unfold Bindings.expand?
  rw [split_encode, bare] at resolved
  rw [bare]
  dsimp only at resolved ⊢
  rw [Tag.text_encode, String.ofList_toList] at resolved
  obtain ⟨_, ⟨⟩, resolved⟩ := Reading.ok_of_bind resolved
  have fits := agree.resolve? (show "" ≠ "xmlns" by decide)
  change (s.lookup? [] = _ ∨ s.lookup? [] = _) ∧ _ ∨ ∃ _ _ _, s.lookup? [] = _ ∧ _ at fits
  rcases fits with ⟨free | free, none⟩ | ⟨first, more, value, found, means, bound⟩
  · rw [free] at resolved
    cases resolved
    rw [none]
    exact ⟨[], rfl, rfl⟩
  · rw [free] at resolved
    cases resolved
    rw [none]
    exact ⟨[], rfl, rfl⟩
  · rw [found] at resolved
    obtain ⟨space, read, told⟩ := Reading.ok_of_bind resolved
    cases told
    rw [bound]
    exact ⟨value.toList, space_of_bound read means, by simp⟩

theorem Agree.expand?_labelled {s : Scopes} {b : Bindings} (agree : Agree s b) {written shown : String}
    {q : QName} {label rest : List Char} (cut : Text.cutAt ':' written.toList = some (label, rest))
    (ordinary : String.ofList label ≠ "xmlns")
    (resolved : Tag.resolve s true (encode written.toList) shown = .ok q) :
    ∃ meant, unescape q.space.toList = .ok meant ∧
      b.expand? written = some (QName.text ⟨String.ofList meant, q.name⟩) := by
  unfold Tag.resolve Markup.Scopes.resolve at resolved
  unfold Bindings.expand?
  rw [split_encode, cut] at resolved
  rw [cut]
  dsimp only at resolved ⊢
  rw [Tag.text_encode] at resolved
  obtain ⟨_, ⟨⟩, resolved⟩ := Reading.ok_of_bind resolved
  have fits := agree.resolve? ordinary
  rw [String.toList_ofList] at fits
  generalize encode label = front at resolved fits
  cases front with
  | nil => cases resolved
  | cons c cs =>
    dsimp only at resolved
    rcases fits with ⟨free | free, _⟩ | ⟨first, more, value, found, means, bound⟩
    · rw [free] at resolved
      cases resolved
    · rw [free] at resolved
      cases resolved
    · rw [found] at resolved
      obtain ⟨space, read, told⟩ := Reading.ok_of_bind resolved
      cases told
      rw [bound]
      exact ⟨value.toList, space_of_bound read means, by simp⟩

-- The name of an element is what the context takes it for, up to references in its URI.
theorem Agree.expand? {s : Scopes} {b : Bindings} (agree : Agree s b) {name : Bytes}
    {written shown : String} {q : QName} (spelled : decode? name = some written)
    (ordinary : ∀ rest, written ≠ "xmlns:" ++ rest)
    (resolved : Tag.resolve s true name shown = .ok q) :
    ∃ meant, unescape q.space.toList = .ok meant ∧
      b.expand? written = some (QName.text ⟨String.ofList meant, q.name⟩) := by
  obtain rfl : name = encode written.toList := decode?_eq_some_iff.mp spelled
  cases cut : Text.cutAt ':' written.toList with
  | none => exact agree.expand?_bare cut resolved
  | some parts =>
    obtain ⟨label, rest⟩ := parts
    refine agree.expand?_labelled cut ?_ resolved
    intro same
    refine ordinary (String.ofList rest) (String.toList_inj.mp ?_)
    rw [Text.eq_append_of_cutAt cut, ← String.toList_ofList (l := label), same]
    simp

end XmlRules
