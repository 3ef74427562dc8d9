namespace XmlRules.Text

-- White space in the sense of the Unicode property, not only the four blanks of a markup tag.
def isBlank (c : Char) : Bool :=
  let n := c.toNat
  (9 ≤ n && n ≤ 13) || n == 0x20 || n == 0x85 || n == 0xA0 || n == 0x1680 ||
    (0x2000 ≤ n && n ≤ 0x200A) || n == 0x2028 || n == 0x2029 || n == 0x202F || n == 0x205F ||
    n == 0x3000

def dropTrailing (p : Char → Bool) (cs : List Char) : List Char :=
  (cs.reverse.dropWhile p).reverse

def trimStart (cs : List Char) : List Char := cs.dropWhile isBlank
def trimEnd (cs : List Char) : List Char := dropTrailing isBlank cs
def trim (cs : List Char) : List Char := trimEnd (trimStart cs)

def trimmed (s : String) : String := String.ofList (trim s.toList)

def cutAt (c : Char) : List Char → Option (List Char × List Char)
  | [] => none
  | d :: ds => if d = c then some ([], ds) else (cutAt c ds).map fun (l, r) => (d :: l, r)

theorem eq_append_of_cutAt {c : Char} {cs l r : List Char} (h : cutAt c cs = some (l, r)) :
    cs = l ++ c :: r := by
  induction cs generalizing l with
  | nil => simp [cutAt] at h
  | cons d ds ih =>
    unfold cutAt at h
    split at h
    · rename_i same
      cases h
      simp [same]
    · cases cut : cutAt c ds with
      | none => simp [cut] at h
      | some pair =>
        obtain ⟨l', r'⟩ := pair
        simp only [cut, Option.map_some, Option.some.injEq, Prod.mk.injEq] at h
        obtain ⟨rfl, rfl⟩ := h
        simp [ih cut]

end XmlRules.Text
