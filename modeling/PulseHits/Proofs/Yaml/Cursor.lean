import PulseHits.Yaml.Token

/-!
# Lines within a text

The same lines by themselves and within a longer text: characters before them move the places, and
characters behind them follow where they end. Whole lines end with a break, so whatever stops in
front of a break does not look at what is behind them.
-/

namespace PulseHits.Yaml

/-! ## Whole lines -/

theorem eq_false_of_isBreak (test : Char → Bool)
    (h : ['\n', lineSeparator, paragraphSeparator].all (test · = false)) {c : Char}
    (hc : isBreak c = true) : test c = false := by
  simp only [List.all_cons, List.all_nil, Bool.and_true, Bool.and_eq_true, decide_eq_true_eq] at h
  simp only [isBreak, Bool.or_eq_true, beq_iff_eq, or_assoc] at hc
  rcases hc with rfl | rfl | rfl
  · exact h.1
  · exact h.2.1
  · exact h.2.2

theorem isBreak_eq_false (test : Char → Bool)
    (h : ['\n', lineSeparator, paragraphSeparator].all (test · = false)) {c : Char}
    (hc : test c = true) : isBreak c = false := by
  cases hbreak : isBreak c with
  | false => rfl
  | true =>
    rw [eq_false_of_isBreak test h hbreak] at hc
    cases hc

/-- Whether a text is made of whole lines. -/
def wholeLines (chars : List Char) : Bool :=
  chars.getLast?.all isBreak

/-- Whether a text is made of whole lines and not empty. -/
def inLine (chars : List Char) : Bool :=
  chars.getLast?.any isBreak

section lines
variable {c : Char} {chars rest : List Char}

theorem wholeLines_nil : wholeLines [] = true := rfl

theorem wholeLines_of_inLine (h : inLine chars = true) : wholeLines chars = true := by
  unfold inLine at h
  unfold wholeLines
  cases hlast : chars.getLast? with
  | none => rfl
  | some b => simpa [hlast] using h

theorem inLine_of_wholeLines (h : wholeLines chars = true) (hne : chars ≠ []) :
    inLine chars = true := by
  unfold wholeLines at h
  unfold inLine
  cases hlast : chars.getLast? with
  | none => exact absurd (List.getLast?_eq_none_iff.mp hlast) hne
  | some b => simpa [hlast] using h

theorem ne_nil_of_inLine (h : inLine chars = true) : chars ≠ [] := by
  rintro rfl
  cases h

theorem inLine_tail (h : wholeLines (c :: rest) = true) (hc : isBreak c = false) :
    inLine rest = true := by
  cases rest with
  | nil =>
    have hbreak : isBreak c = true := h
    rw [hc] at hbreak
    cases hbreak
  | cons d rest =>
    refine inLine_of_wholeLines ?_ (List.cons_ne_nil d rest)
    rwa [wholeLines, List.getLast?_cons_cons] at h

theorem wholeLines_tail (h : wholeLines (c :: rest) = true) : wholeLines rest = true := by
  cases rest with
  | nil => rfl
  | cons d rest => rwa [wholeLines, List.getLast?_cons_cons] at h

theorem wholeLines_drop (h : wholeLines chars = true) (n : Nat) :
    wholeLines (chars.drop n) = true := by
  induction n generalizing chars with
  | zero => exact h
  | succ n ih =>
    cases chars with
    | nil => rfl
    | cons c rest => exact ih (wholeLines_tail h)

theorem inLine_append (h : inLine rest = true) : inLine (chars ++ rest) = true := by
  unfold inLine at h ⊢
  rw [List.getLast?_append]
  cases hlast : rest.getLast? with
  | none => simp [hlast] at h
  | some b => simpa [hlast] using h

theorem wholeLines_append (h₁ : wholeLines chars = true) (h₂ : wholeLines rest = true) :
    wholeLines (chars ++ rest) = true := by
  cases rest with
  | nil => rwa [List.append_nil]
  | cons c rest =>
    exact wholeLines_of_inLine (inLine_append (inLine_of_wholeLines h₂ (List.cons_ne_nil c rest)))

/-- A test that no break passes stops inside a line. -/
theorem takeWhile_append_of_inLine {test : Char → Bool}
    (htest : ∀ c, isBreak c = true → test c = false) (h : inLine chars = true) (behind : List Char) :
    (chars ++ behind).takeWhile test = chars.takeWhile test ∧
      inLine (chars.drop (chars.takeWhile test).length) = true := by
  induction chars with
  | nil => cases h
  | cons c rest ih =>
    rw [List.cons_append, List.takeWhile_cons, List.takeWhile_cons]
    cases hbreak : isBreak c with
    | true =>
      rw [htest c hbreak]
      exact ⟨rfl, h⟩
    | false =>
      cases test c with
      | false => exact ⟨rfl, h⟩
      | true =>
        obtain ⟨htake, hdrop⟩ := ih (inLine_tail (wholeLines_of_inLine h) hbreak)
        exact ⟨congrArg (c :: ·) htake, hdrop⟩

theorem startsWithGap_append (h : chars ≠ []) (behind : List Char) :
    startsWithGap (chars ++ behind) = startsWithGap chars := by
  cases chars with
  | nil => exact absurd rfl h
  | cons c rest => rfl

theorem head?_append_of_ne_nil (h : chars ≠ []) (behind : List Char) :
    (chars ++ behind).head? = chars.head? := by
  cases chars with
  | nil => exact absurd rfl h
  | cons c rest => rfl

/-- Three marks and a gap are seen within whole lines or not at all. -/
theorem startsWithMark_append {mark : Char} (hmark : isBreak mark = false)
    (h : inLine chars = true) (behind : List Char) :
    startsWithMark mark (chars ++ behind) = startsWithMark mark chars := by
  -- the last of fewer than four characters is a break, which is no mark
  have hne : ∀ a, isBreak a = true → (a == mark) = false := by
    intro a ha
    rw [beq_eq_false_iff_ne]
    rintro rfl
    simp [ha] at hmark
  rcases chars with _ | ⟨a, _ | ⟨b, _ | ⟨c, _ | ⟨d, rest⟩⟩⟩⟩
  · cases h
  · rcases behind with _ | ⟨b, _ | ⟨c, behind⟩⟩ <;> simp [startsWithMark, hne a h]
  · rcases behind with _ | ⟨c, behind⟩ <;> simp [startsWithMark, hne b h]
  · simp [startsWithMark, hne c h]
  · rfl

theorem startsWithDocumentMark_append (h : inLine chars = true) (behind : List Char) :
    startsWithDocumentMark (chars ++ behind) = startsWithDocumentMark chars := by
  rw [startsWithDocumentMark, startsWithMark_append rfl h, startsWithMark_append rfl h]
  rfl

end lines

/-! ## Places and cursors -/

/-- What stands around some lines. -/
structure Surroundings where
  /-- The bytes before the lines. -/
  offset : Nat
  /-- The lines before the lines. -/
  line : Nat
  /-- The tokens before the lines, latest first. -/
  tokens : List Token
  behind : List Char

variable (x : Surroundings)

/-- A place of some lines as a place of the text around them. -/
def Place.within (p : Place) : Place :=
  ⟨x.offset + p.offset, x.line + p.line, p.column⟩

def Cursor.within (c : Cursor) : Cursor :=
  ⟨c.chars ++ x.behind, c.place.within x⟩

@[simp] theorem Place.column_within (p : Place) : (p.within x).column = p.column := rfl

@[simp] theorem Cursor.chars_within (c : Cursor) : (c.within x).chars = c.chars ++ x.behind := rfl

@[simp] theorem Cursor.place_within (c : Cursor) : (c.within x).place = c.place.within x := rfl

theorem Place.after_within (p : Place) (c : Char) :
    (p.within x).after c = (p.after c).within x := by
  unfold after within
  split <;> simp [Nat.add_assoc]

theorem Place.foldl_after_within (p : Place) (chars : List Char) :
    chars.foldl after (p.within x) = (chars.foldl after p).within x := by
  induction chars generalizing p with
  | nil => rfl
  | cons c rest ih => rw [List.foldl_cons, List.foldl_cons, after_within, ih]

theorem Cursor.forward_within (c : Cursor) {n : Nat} (h : n ≤ c.chars.length) :
    (c.within x).forward n = (c.forward n).within x := by
  simp [forward, within, List.drop_append_of_le_length h, List.take_append_of_le_length h,
    Place.foldl_after_within]

variable {x} {c c' c'' : Cursor}

/-- One cursor is behind another, over characters of the text. -/
def Cursor.Reaches (c c' : Cursor) : Prop :=
  ∃ n ≤ c.chars.length, c' = c.forward n

namespace Cursor

theorem forward_forward (c : Cursor) (m n : Nat) : (c.forward m).forward n = c.forward (m + n) := by
  simp [forward, List.take_add, List.foldl_append]

theorem forward_cons (a : Char) (rest : List Char) (p : Place) (n : Nat) :
    (⟨a :: rest, p⟩ : Cursor).forward (n + 1) = (⟨rest, p.after a⟩ : Cursor).forward n := rfl

theorem next_cons (a : Char) (rest : List Char) (p : Place) :
    (⟨a :: rest, p⟩ : Cursor).next = ⟨rest, p.after a⟩ := rfl

@[simp] theorem chars_forward (c : Cursor) (n : Nat) : (c.forward n).chars = c.chars.drop n := rfl

namespace Reaches

theorem refl (c : Cursor) : c.Reaches c := ⟨0, Nat.zero_le _, rfl⟩

theorem forward {n : Nat} (h : n ≤ c.chars.length) : c.Reaches (c.forward n) := ⟨n, h, rfl⟩

theorem trans (h₁ : c.Reaches c') (h₂ : c'.Reaches c'') : c.Reaches c'' := by
  obtain ⟨m, hm, rfl⟩ := h₁
  obtain ⟨n, hn, rfl⟩ := h₂
  refine ⟨m + n, ?_, forward_forward c m n⟩
  rw [chars_forward, List.length_drop] at hn
  omega

theorem cons {a : Char} {rest : List Char} {p : Place}
    (h : Reaches ⟨rest, p.after a⟩ c') : Reaches ⟨a :: rest, p⟩ c' := by
  obtain ⟨n, hn, rfl⟩ := h
  exact ⟨n + 1, Nat.succ_le_succ hn, (forward_cons a rest p n).symm⟩

theorem wholeLines (h : c.Reaches c') (hlines : wholeLines c.chars = true) :
    Yaml.wholeLines c'.chars = true := by
  obtain ⟨n, -, rfl⟩ := h
  exact wholeLines_drop hlines n

theorem length_le (h : c.Reaches c') : c'.chars.length ≤ c.chars.length := by
  obtain ⟨n, -, rfl⟩ := h
  rw [chars_forward, List.length_drop]
  exact Nat.sub_le _ _

end Reaches

theorem skipWhile_reaches (c : Cursor) (test : Char → Bool) : c.Reaches (c.skipWhile test) :=
  .forward (List.takeWhile_prefix test).length_le

theorem skipWhile_within {test : Char → Bool} (htest : ∀ a, isBreak a = true → test a = false)
    (h : inLine c.chars = true) :
    (c.within x).skipWhile test = (c.skipWhile test).within x ∧
      inLine (c.skipWhile test).chars = true := by
  obtain ⟨htake, hdrop⟩ := takeWhile_append_of_inLine htest h x.behind
  refine ⟨?_, hdrop⟩
  rw [skipWhile, chars_within, htake, skipWhile,
    forward_within x c (List.takeWhile_prefix test).length_le]

end Cursor

/-! ## The end of whole lines -/

theorem Place.column_foldl_after {chars : List Char} (h : inLine chars = true) (p : Place) :
    (chars.foldl after p).column = 0 := by
  induction chars generalizing p with
  | nil => cases h
  | cons c rest ih =>
    cases rest with
    | nil =>
      have hc : isBreak c = true := h
      simp [after, hc]
    | cons d rest =>
      rw [List.foldl_cons]
      refine ih ?_ _
      rwa [inLine, List.getLast?_cons_cons] at h

theorem Cursor.Reaches.column_eq_zero (h : c.Reaches c') (hlines : inLine c.chars = true)
    (hend : c'.chars = []) : c'.place.column = 0 := by
  obtain ⟨n, hn, rfl⟩ := h
  have hall : c.chars.take n = c.chars := by
    have hdrop : c.chars.drop n = [] := hend
    have happend := List.take_append_drop n c.chars
    rwa [hdrop, List.append_nil] at happend
  show ((c.chars.take n).foldl Place.after c.place).column = 0
  rw [hall]
  exact Place.column_foldl_after hlines c.place

end PulseHits.Yaml
