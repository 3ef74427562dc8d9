import XmlRules.Proofs.ParsedPattern
import XmlRules.Proofs.ReaderScript
namespace XmlRules.Markup
open Text

def encode (cs : List Char) : Bytes := cs.flatMap String.utf8EncodeChar

@[simp] theorem encode_nil : encode [] = [] := rfl
@[simp] theorem encode_append (l r : List Char) : encode (l ++ r) = encode l ++ encode r := by
  simp [encode]

theorem toByteArray_eq (s : String) : s.toByteArray = (encode s.toList).toByteArray := by
  rw [← String.utf8Encode_toList]
  rfl

theorem toByteArray_injective {l r : Bytes} (same : l.toByteArray = r.toByteArray) : l = r := by
  simpa using congrArg (fun bytes : ByteArray => bytes.data.toList) same

theorem decode?_eq_some_iff {bytes : Bytes} {s : String} :
    decode? bytes = some s ↔ bytes = encode s.toList := by
  have whole : (⟨bytes.toArray⟩ : ByteArray) = bytes.toByteArray := by
    apply ByteArray.ext
    simp
  unfold decode? String.fromUTF8?
  rw [whole]
  constructor
  · intro decoded
    split at decoded
    · cases decoded
      exact toByteArray_injective (toByteArray_eq (String.fromUTF8 _ _))
    · cases decoded
  · rintro rfl
    have valid : (encode s.toList).toByteArray.IsValidUTF8 := ⟨s.toList, rfl⟩
    rw [dif_pos valid]
    exact congrArg some (String.toByteArray_inj.mp (toByteArray_eq s).symm)

theorem decode?_encode (cs : List Char) : decode? (encode cs) = some (String.ofList cs) :=
  decode?_eq_some_iff.mpr (by simp)

theorem encode_eq_nil_iff {cs : List Char} : encode cs = [] ↔ cs = [] := by
  cases cs <;> simp [encode]

theorem encode_injective {l r : List Char} (same : encode l = encode r) : l = r := by
  have decoded := decode?_encode l
  rw [same, decode?_encode] at decoded
  exact (String.ofList_injective (Option.some.inj decoded)).symm

theorem encode_of_ascii {c : Char} {b : UInt8} (within : b ∈ String.utf8EncodeChar c)
    (small : b.toNat < 128) : c.toNat = b.toNat := by
  change c.val.toNat = b.toNat
  unfold String.utf8EncodeChar at within
  dsimp only at within
  split at within
  · rw [List.mem_singleton.mp within, UInt8.toNat_ofNat']
    omega
  · split at within
    · simp only [List.mem_cons, List.not_mem_nil, or_false] at within
      rcases within with rfl | rfl <;> simp only [UInt8.toNat_ofNat'] at small <;> omega
    · split at within
      · simp only [List.mem_cons, List.not_mem_nil, or_false] at within
        rcases within with rfl | rfl | rfl <;> simp only [UInt8.toNat_ofNat'] at small <;> omega
      · simp only [List.mem_cons, List.not_mem_nil, or_false] at within
        rcases within with rfl | rfl | rfl | rfl <;>
          simp only [UInt8.toNat_ofNat'] at small <;> omega

theorem not_mem_encode {cs : List Char} (free : ':' ∉ cs) : colon ∉ encode cs := by
  intro member
  obtain ⟨c, inside, byte⟩ := List.mem_flatMap.mp member
  have same : c.toNat = ':'.toNat := encode_of_ascii byte (by decide)
  rw [← Char.ofNat_toNat c, same] at inside
  exact free inside

theorem takeWhile_encode {cs : List Char} (free : ':' ∉ cs) (rest : Bytes) :
    (encode cs ++ rest).takeWhile (· != colon) = encode cs ++ rest.takeWhile (· != colon) := by
  apply List.takeWhile_append_of_pos
  intro b member
  have other : b ≠ colon := fun same => not_mem_encode free (same ▸ member)
  simpa using other

theorem not_mem_of_cutAt {c : Char} {cs : List Char} (whole : cutAt c cs = none) : c ∉ cs := by
  induction cs with
  | nil => exact List.not_mem_nil
  | cons d ds ih =>
    unfold cutAt at whole
    split at whole
    · cases whole
    · rename_i other
      rw [List.mem_cons, not_or]
      exact ⟨fun same => other same.symm, ih (Option.map_eq_none_iff.mp whole)⟩

-- A name is split at the same colon as bytes and as text.
theorem split_encode (cs : List Char) : Scopes.split (encode cs) =
    match cutAt ':' cs with
    | some (label, rest) => (some (encode label), encode rest)
    | none => (none, encode cs) := by
  unfold Scopes.split
  cases cut : cutAt ':' cs with
  | none =>
    have front := takeWhile_encode (not_mem_of_cutAt cut) []
    rw [List.append_nil, List.takeWhile_nil, List.append_nil] at front
    simp [front]
  | some parts =>
    obtain ⟨label, rest⟩ := parts
    have shape : encode cs = encode label ++ colon :: encode rest := by
      rw [eq_append_of_cutAt cut, encode_append]
      rfl
    have front : (encode cs).takeWhile (· != colon) = encode label := by
      rw [shape, takeWhile_encode (Pattern.cutAt_left cut), List.takeWhile_cons_of_neg (by simp),
        List.append_nil]
    simp only [front]
    simp [shape]

-- What a value with references in it stands for.
inductive Refers : List Char → List Char → Prop where
  | nil : Refers [] []
  | plain {c : Char} {cs ds : List Char} (other : c ≠ '&') (rest : Refers cs ds) :
      Refers (c :: cs) (c :: ds)
  | reference {c : Char} {name cs ds : List Char} (meant : attributeReference name = .ok c)
      (rest : Refers cs ds) : Refers ('&' :: name ++ ';' :: cs) (c :: ds)

theorem refers_of_unescapeFrom {taken : Nat} {cs ds : List Char}
    (read : unescapeFrom taken cs = .ok ds) : Refers (cs.drop taken) ds := by
  induction cs generalizing taken ds with
  | nil =>
    cases read
    rw [List.drop_nil]
    exact .nil
  | cons c cs ih =>
    unfold unescapeFrom at read
    cases taken with
    | succ left => exact ih read
    | zero =>
      dsimp only at read
      split at read
      · rename_i mark
        let name := cs.takeWhile fun d => d != '&' && d != ';'
        split at read
        · cases read
        · rename_i closed
          obtain ⟨meant, known, read⟩ := Reading.ok_of_bind read
          obtain ⟨rest, later, told⟩ := Reading.ok_of_bind read
          cases told
          have front : name ++ cs.drop name.length = cs :=
            List.prefix_iff_eq_append.mp (List.takeWhile_prefix _)
          obtain ⟨behind, ends⟩ := List.head?_eq_some_iff.mp (Classical.not_not.mp closed)
          have left : cs.drop (name.length + 1) = behind := by
            rw [← List.tail_drop, ends, List.tail_cons]
          have shape : c :: cs = '&' :: name ++ ';' :: cs.drop (name.length + 1) := by
            rw [left, ← ends, List.cons_append, front, mark]
          rw [List.drop_zero, shape]
          exact .reference known (ih later)
      · rename_i other
        obtain ⟨rest, later, told⟩ := Reading.ok_of_bind read
        cases told
        exact .plain other (ih later)

theorem refers_of_unescape {cs ds : List Char} (read : unescape cs = .ok ds) : Refers cs ds :=
  refers_of_unescapeFrom read

theorem Refers.length {cs ds : List Char} (refers : Refers cs ds) :
    ds.length ≤ cs.length ∧ ('&' ∈ cs → ds.length < cs.length) := by
  induction refers with
  | nil => simp
  | plain other _ ih =>
    refine ⟨Nat.succ_le_succ ih.1, fun member => Nat.succ_lt_succ (ih.2 ?_)⟩
    exact (List.mem_cons.mp member).resolve_left (Ne.symm other)
  | reference meant _ ih =>
    simp only [List.cons_append, List.length_cons, List.length_append]
    omega

theorem Refers.eq_nil_iff {cs ds : List Char} (refers : Refers cs ds) : ds = [] ↔ cs = [] := by
  cases refers with
  | nil => exact Iff.rfl
  | plain | reference => simp

theorem Refers.eq_iff {cs ds : List Char} (refers : Refers cs ds) : ds = cs ↔ '&' ∉ cs := by
  constructor
  · rintro rfl member
    exact Nat.lt_irrefl _ (refers.length.2 member)
  · intro free
    induction refers with
    | nil => rfl
    | plain _ _ ih =>
      rw [List.mem_cons, not_or] at free
      rw [ih free.2]
    | reference => simp at free

end XmlRules.Markup
