namespace XmlRules.Text

-- Lengths and offsets are counted in the bytes of the UTF-8 form.
def width : List Char → Nat
  | [] => 0
  | c :: cs => c.utf8Size + width cs

theorem width_append (l r : List Char) : width (l ++ r) = width l + width r := by
  induction l with
  | nil => simp [width]
  | cons c cs ih => simp [width, ih, Nat.add_assoc]

def takeBytes : Nat → List Char → List Char
  | _, [] => []
  | n, c :: cs => if c.utf8Size ≤ n then c :: takeBytes (n - c.utf8Size) cs else []

def dropBytes : Nat → List Char → List Char
  | _, [] => []
  | n, c :: cs => if c.utf8Size ≤ n then dropBytes (n - c.utf8Size) cs else c :: cs

theorem takeBytes_append_dropBytes (n : Nat) (cs : List Char) :
    takeBytes n cs ++ dropBytes n cs = cs := by
  induction cs generalizing n with
  | nil => rfl
  | cons c cs ih => unfold takeBytes dropBytes; split <;> simp [ih]

theorem takeBytes_width_append (l r : List Char) : takeBytes (width l) (l ++ r) = l := by
  induction l with
  | nil =>
    cases r with
    | nil => rfl
    | cons c cs => have := c.utf8Size_pos; simp [takeBytes, width]; omega
  | cons c cs ih => simp [takeBytes, width, ih]

theorem dropBytes_width_append (l r : List Char) : dropBytes (width l) (l ++ r) = r := by
  have whole := takeBytes_append_dropBytes (width l) (l ++ r)
  rw [takeBytes_width_append] at whole
  exact List.append_cancel_left whole

end XmlRules.Text
