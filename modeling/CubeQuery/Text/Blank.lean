/-!
# Blank characters

The characters that count as blank are those of the Unicode property `White_Space`. A text is
blank when it holds nothing else, and trimming drops them at both ends.
-/

namespace CubeQuery.Text

/-- The property `White_Space`: 25 characters. The zero-width space U+200B and the byte order mark
U+FEFF are not among them. -/
def isBlank (c : Char) : Bool :=
  let n := c.toNat
  (0x09 ≤ n && n ≤ 0x0D) || n == 0x20 || n == 0x85 || n == 0xA0 || n == 0x1680 ||
    (0x2000 ≤ n && n ≤ 0x200A) || n == 0x2028 || n == 0x2029 || n == 0x202F || n == 0x205F ||
    n == 0x3000

/-- The text without the blank characters it starts with. -/
def trimStart (cs : List Char) : List Char := cs.dropWhile isBlank

/-- The text without the blank characters it ends with. -/
def trimEnd : List Char → List Char
  | [] => []
  | c :: cs =>
    match trimEnd cs with
    | [] => if isBlank c then [] else [c]
    | d :: ds => c :: d :: ds

/-- The text without blank characters at either end. -/
def trim (cs : List Char) : List Char := trimEnd (trimStart cs)

/-- The string without blank characters at either end. -/
def trimmed (s : String) : String := String.ofList (trim s.toList)

/-- The string is empty or holds blank characters only. -/
def isBlankText (s : String) : Bool := s.toList.all isBlank

theorem trimEnd_eq_nil_iff (cs : List Char) : trimEnd cs = [] ↔ cs.all isBlank = true := by
  induction cs with
  | nil => simp [trimEnd]
  | cons c cs ih =>
    simp only [trimEnd, List.all_cons, Bool.and_eq_true, ← ih]
    split
    · rename_i h; by_cases hc : isBlank c <;> simp [h, hc]
    · rename_i h; simp [h]

theorem trimStart_eq_nil_iff (cs : List Char) : trimStart cs = [] ↔ cs.all isBlank = true := by
  induction cs with
  | nil => simp [trimStart]
  | cons c cs ih =>
    rw [trimStart, List.dropWhile_cons, List.all_cons, Bool.and_eq_true, ← ih]
    split
    · next hc => simp [hc, trimStart]
    · next hc => simp [hc]

/-! ## What is trimmed -/

theorem trimStart_cons {c : Char} (hc : isBlank c = false) (cs : List Char) :
    trimStart (c :: cs) = c :: cs := by
  rw [trimStart, List.dropWhile_cons_of_neg]
  simp [hc]

theorem trimEnd_concat {c : Char} (hc : isBlank c = false) (cs : List Char) :
    trimEnd (cs ++ [c]) = cs ++ [c] := by
  induction cs with
  | nil => simp [trimEnd, hc]
  | cons d cs ih =>
    rw [List.cons_append, trimEnd, ih]
    cases cs <;> rfl

/-- Between characters that are not blank there is nothing to trim. -/
theorem trim_eq_self {c d : Char} (hc : isBlank c = false) (hd : isBlank d = false)
    (cs : List Char) : trim (c :: (cs ++ [d])) = c :: (cs ++ [d]) := by
  rw [trim, trimStart_cons hc, ← List.cons_append, trimEnd_concat hd]

variable {before behind : List Char}

theorem notMem_of_blank {cs : List Char} (h : cs.all isBlank = true) {c : Char}
    (hc : isBlank c = false) : c ∉ cs := by
  intro hmem
  rw [List.all_eq_true.1 h c hmem] at hc
  cases hc

theorem trimStart_behind (h : before.all isBlank = true) (cs : List Char) :
    trimStart (before ++ cs) = trimStart cs := by
  rw [trimStart, List.dropWhile_append_of_pos (List.all_eq_true.1 h), trimStart]

theorem trimEnd_before (h : behind.all isBlank = true) (cs : List Char) :
    trimEnd (cs ++ behind) = trimEnd cs := by
  induction cs with
  | nil => rw [List.nil_append, (trimEnd_eq_nil_iff behind).2 h, trimEnd]
  | cons c cs ih => rw [List.cons_append, trimEnd, trimEnd, ih]

theorem exists_trimEnd (cs : List Char) :
    ∃ behind, behind.all isBlank = true ∧ cs = trimEnd cs ++ behind := by
  induction cs with
  | nil => exact ⟨[], rfl, rfl⟩
  | cons c cs ih =>
    obtain ⟨behind, hbehind, hcs⟩ := ih
    rw [trimEnd]
    split
    · next hnil =>
      rw [hnil, List.nil_append] at hcs
      by_cases hc : isBlank c = true
      · exact ⟨c :: cs, by simp [hc, hcs, hbehind], by simp [hc]⟩
      · exact ⟨cs, hcs ▸ hbehind, by simp [hc]⟩
    · next hcons =>
      rw [hcons] at hcs
      exact ⟨behind, hbehind, congrArg (c :: ·) hcs⟩

theorem trimEnd_prefix (cs : List Char) : trimEnd cs <+: cs := by
  obtain ⟨behind, -, hcs⟩ := exists_trimEnd cs
  exact ⟨behind, hcs.symm⟩

theorem exists_trimStart (cs : List Char) :
    ∃ before, before.all isBlank = true ∧ cs = before ++ trimStart cs :=
  ⟨cs.takeWhile isBlank, List.all_takeWhile, List.takeWhile_append_dropWhile.symm⟩

theorem trimStart_append {cs : List Char} (h : trimStart cs ≠ []) (ds : List Char) :
    trimStart (cs ++ ds) = trimStart cs ++ ds := by
  rw [trimStart, List.dropWhile_append, if_neg (by simpa [trimStart] using h), trimStart]

/-- Nothing more is trimmed of what a trimmed text begins with. -/
theorem trimStart_of_prefix {cs ds : List Char} (h : ds <+: trimStart cs) : trimStart ds = ds := by
  cases ds with
  | nil => rfl
  | cons d ds =>
    obtain ⟨rest, hrest⟩ := h
    have hd := List.head?_dropWhile_not isBlank cs
    rw [← trimStart, ← hrest] at hd
    exact trimStart_cons hd ds

theorem trim_eq_nil_iff (cs : List Char) : trim cs = [] ↔ cs.all isBlank = true := by
  obtain ⟨before, hbefore, hcs⟩ := exists_trimStart cs
  have hall : cs.all isBlank = (before ++ trimStart cs).all isBlank := congrArg (·.all isBlank) hcs
  rw [trim, trimEnd_eq_nil_iff, hall, List.all_append, hbefore, Bool.true_and]

theorem trim_behind (h : before.all isBlank = true) (cs : List Char) :
    trim (before ++ cs) = trim cs := by
  rw [trim, trimStart_behind h, trim]

theorem trim_before (h : behind.all isBlank = true) (cs : List Char) :
    trim (cs ++ behind) = trim cs := by
  by_cases hnil : trimStart cs = []
  · have hcs := (trimStart_eq_nil_iff cs).1 hnil
    rw [trim, trimStart_behind hcs, (trimStart_eq_nil_iff behind).2 h, trim, hnil]
  · rw [trim, trimStart_append hnil, trimEnd_before h, trim]

end CubeQuery.Text
