import Mathlib.Data.List.Basic

/-!
# Cutting a text into lines

What ends a line differs between languages. Here it is any element of a set `ends`, and in every case
`cr` followed by `lf`, which is one end and not two. Joining lines with `lf` and cutting again gives
the lines back when they hold no end of their own; cutting and joining gives the text back only when
`lf` is the only end in it.
-/

namespace AgentUE.Data.Lines

variable {α : Type} [DecidableEq α]

/-- The parts between the line ends: one more than there are ends. -/
def pieces (ends : α → Bool) (cr lf : α) : List α → List (List α)
  | [] => [[]]
  | [c] => if ends c then [[], []] else [[c]]
  | c :: d :: rest =>
    if c = cr ∧ d = lf then [] :: pieces ends cr lf rest
    else if ends c then [] :: pieces ends cr lf (d :: rest)
    else (pieces ends cr lf (d :: rest)).modifyHead (c :: ·)

/-- The lines of a text: a text that ends with a line end has no empty line behind it. -/
def lines (ends : α → Bool) (cr lf : α) (text : List α) : List (List α) :=
  let parts := pieces ends cr lf text
  if parts.getLast? = some [] then parts.dropLast else parts

variable {ends : α → Bool} {cr lf : α}

theorem pieces_cons_of_not_ends {c : α} (h : ends c = false) (hcr : c ≠ cr) (text : List α) :
    pieces ends cr lf (c :: text) = (pieces ends cr lf text).modifyHead (c :: ·) := by
  cases text with
  | nil => simp [pieces, h]
  | cons d rest => simp [pieces, h, hcr]

theorem pieces_cons_of_ends {c : α} (h : ends c = true) (hcr : c ≠ cr) (text : List α) :
    pieces ends cr lf (c :: text) = [] :: pieces ends cr lf text := by
  cases text with
  | nil => simp [pieces, h]
  | cons d rest => simp [pieces, h, hcr]

theorem pieces_ne_nil (text : List α) : pieces ends cr lf text ≠ [] := by
  induction text using pieces.induct ends cr lf with
  | case1 => simp [pieces]
  | case2 c h => simp [pieces, h]
  | case3 c h => simp [pieces, h]
  | case4 c d rest h ih => simp [pieces, h]
  | case5 c d rest h hc ih => simp [pieces, h, hc]
  | case6 c d rest h hc ih =>
    rw [pieces, if_neg h, if_neg hc]
    simpa using ih

/-- No piece holds a line end. -/
theorem ends_eq_false_of_mem_pieces {text piece : List α} (hp : piece ∈ pieces ends cr lf text) {c : α}
    (hc : c ∈ piece) : ends c = false := by
  induction text using pieces.induct ends cr lf generalizing piece with
  | case1 =>
    obtain rfl : piece = [] := by simpa [pieces] using hp
    simp at hc
  | case2 d h =>
    rw [pieces, if_pos h] at hp
    obtain rfl : piece = [] := by simpa using hp
    simp at hc
  | case3 d h =>
    rw [pieces, if_neg h] at hp
    obtain rfl : piece = [d] := by simpa using hp
    obtain rfl : c = d := by simpa using hc
    simpa using h
  | case4 d e rest h ih =>
    rw [pieces, if_pos h] at hp
    rcases List.mem_cons.mp hp with rfl | hp
    · simp at hc
    · exact ih hp hc
  | case5 d e rest h hd ih =>
    rw [pieces, if_neg h, if_pos hd] at hp
    rcases List.mem_cons.mp hp with rfl | hp
    · simp at hc
    · exact ih hp hc
  | case6 d e rest h hd ih =>
    rw [pieces, if_neg h, if_neg hd] at hp
    cases hparts : pieces ends cr lf (e :: rest) with
    | nil => simp [hparts] at hp
    | cons first others =>
      rw [hparts] at hp ih
      rcases List.mem_cons.mp hp with rfl | hp
      · rcases List.mem_cons.mp hc with rfl | hc
        · simpa using hd
        · exact ih List.mem_cons_self hc
      · exact ih (List.mem_cons_of_mem _ hp) hc

/-- A text without line ends is one piece. -/
theorem pieces_of_not_ends {text : List α} (hends : ∀ c ∈ text, ends c = false) (hcr : cr ∉ text) :
    pieces ends cr lf text = [text] := by
  induction text with
  | nil => rfl
  | cons c text ih =>
    rw [pieces_cons_of_not_ends (hends c (by simp)) (fun h => hcr (by simp [h])),
      ih (fun d hd => hends d (by simp [hd])) (fun h => hcr (by simp [h]))]
    rfl

/-- The first line is what stands before the first end. -/
theorem pieces_append {line : List α} (hends : ∀ c ∈ line, ends c = false) (hcr : cr ∉ line)
    (hlf : ends lf = true) (hne : lf ≠ cr) (text : List α) :
    pieces ends cr lf (line ++ lf :: text) = line :: pieces ends cr lf text := by
  induction line with
  | nil => exact pieces_cons_of_ends hlf hne text
  | cons c line ih =>
    rw [List.cons_append, pieces_cons_of_not_ends (hends c (by simp)) (fun h => hcr (by simp [h])),
      ih (fun d hd => hends d (by simp [hd])) (fun h => hcr (by simp [h]))]
    rfl

/-- Cutting undoes joining. -/
theorem pieces_intercalate {parts : List (List α)} (hne : parts ≠ [])
    (hends : ∀ part ∈ parts, ∀ c ∈ part, ends c = false) (hcr : ∀ part ∈ parts, cr ∉ part)
    (hlf : ends lf = true) (hcrlf : lf ≠ cr) : pieces ends cr lf ([lf].intercalate parts) = parts := by
  induction parts with
  | nil => exact absurd rfl hne
  | cons part rest ih =>
    cases rest with
    | nil => simpa using pieces_of_not_ends (hends part (by simp)) (hcr part (by simp))
    | cons next rest =>
      rw [List.intercalate_cons_cons, List.append_assoc, List.singleton_append,
        pieces_append (hends part (by simp)) (hcr part (by simp)) hlf hcrlf,
        ih (by simp) (fun p hp => hends p (by simp [hp])) (fun p hp => hcr p (by simp [hp]))]

omit [DecidableEq α] in
theorem intercalate_append {parts rest : List (List α)} (hparts : parts ≠ []) (hrest : rest ≠ []) :
    [lf].intercalate (parts ++ rest) = [lf].intercalate parts ++ lf :: [lf].intercalate rest := by
  induction parts with
  | nil => exact absurd rfl hparts
  | cons part parts ih =>
    cases parts with
    | nil => simp [List.intercalate_cons_of_ne_nil hrest]
    | cons next parts =>
      rw [List.cons_append, List.cons_append, List.intercalate_cons_cons, ← List.cons_append, ih (by simp)]
      simp

omit [DecidableEq α] in
/-- What a joined text holds comes from a line or is the separator. -/
theorem mem_intercalate {parts : List (List α)} {c : α} (h : c ∈ [lf].intercalate parts) :
    c = lf ∨ ∃ part ∈ parts, c ∈ part := by
  induction parts with
  | nil => simp at h
  | cons part rest ih =>
    cases rest with
    | nil => exact .inr ⟨part, by simp, by simpa using h⟩
    | cons next rest =>
      rw [List.intercalate_cons_cons, List.append_assoc, List.mem_append, List.singleton_append,
        List.mem_cons] at h
      rcases h with h | h | h
      · exact .inr ⟨part, by simp, h⟩
      · exact .inl h
      · rcases ih h with h | ⟨p, hp, hc⟩
        · exact .inl h
        · exact .inr ⟨p, by simp [hp], hc⟩

theorem mem_pieces_of_mem_lines {text line : List α} (h : line ∈ lines ends cr lf text) :
    line ∈ pieces ends cr lf text := by
  unfold lines at h
  simp only at h
  split at h
  · exact List.dropLast_subset _ h
  · exact h

/-- A text that is not empty and has no line end is its only line. -/
theorem lines_of_not_ends {text : List α} (hne : text ≠ []) (hends : ∀ c ∈ text, ends c = false)
    (hcr : cr ∉ text) : lines ends cr lf text = [text] := by
  unfold lines
  rw [pieces_of_not_ends hends hcr]
  simp [hne]

/-- Joining the lines of a text without `cr` and `lf` gives the text exactly when it has no other end
either. -/
theorem intercalate_lines_iff {text : List α} (hne : text ≠ []) (hcr : cr ∉ text) (hlf : lf ∉ text) :
    [lf].intercalate (lines ends cr lf text) = text ↔ ∀ c ∈ text, ends c = false := by
  constructor
  · intro h c hc
    rw [← h] at hc
    rcases mem_intercalate hc with rfl | ⟨line, hline, hmem⟩
    · rw [h] at hc
      exact absurd hc hlf
    · exact ends_eq_false_of_mem_pieces (mem_pieces_of_mem_lines hline) hmem
  · intro hends
    rw [lines_of_not_ends hne hends hcr]
    simp

/-! ## Lines that end with `cr`

Where `lf` is the only end by itself, a piece may end with `cr`, which an added `lf` swallows.
-/

/-- A line as it is found with an `lf` behind it. -/
def chop (cr : α) : List α → List α
  | [] => []
  | [c] => if c = cr then [] else [c]
  | c :: d :: rest => c :: chop cr (d :: rest)

theorem chop_of_not_mem {line : List α} (h : cr ∉ line) : chop cr line = line := by
  induction line using chop.induct cr with
  | case1 => rfl
  | case2 => simp at h
  | case3 c hc => rw [chop, if_neg hc]
  | case4 c d rest ih => rw [chop, ih fun hmem => h (List.mem_cons_of_mem c hmem)]

/-- A line is chopped behind any part that does not end with `cr`. -/
theorem chop_append {first : List α} (h : ∀ c, first.getLast? = some c → c ≠ cr) (line : List α) :
    chop cr (first ++ line) = first ++ chop cr line := by
  induction first with
  | nil => rfl
  | cons c first ih =>
    cases hrest : first ++ line with
    | nil =>
      obtain ⟨rfl, rfl⟩ := List.append_eq_nil_iff.mp hrest
      simp [chop, h c rfl]
    | cons d rest =>
      rw [List.cons_append, hrest, chop, ← hrest, ih fun e he => h e ?_, List.cons_append]
      cases first with
      | nil => cases he
      | cons d' first => rw [List.getLast?_cons_cons, he]

/-- A line without ends, before an `lf`. -/
theorem pieces_append_lf {line : List α} (hends : ∀ c ∈ line, ends c = false) (hlf : ends lf = true) (hne : lf ≠ cr)
    (text : List α) : pieces ends cr lf (line ++ lf :: text) = chop cr line :: pieces ends cr lf text := by
  induction line using chop.induct cr with
  | case1 => exact pieces_cons_of_ends hlf hne text
  | case2 => simp [pieces, chop]
  | case3 c hc =>
    rw [List.singleton_append, pieces_cons_of_not_ends (hends c (by simp)) hc, pieces_cons_of_ends hlf hne, chop,
      if_neg hc]
    rfl
  | case4 c d rest ih =>
    have hd : d ≠ lf := by
      rintro rfl
      exact Bool.false_ne_true ((hends d (by simp)).symm.trans hlf)
    rw [List.cons_append, List.cons_append, pieces, if_neg fun h => hd h.2, if_neg (by simp [hends c]),
      ← List.cons_append, ih fun e he => hends e (List.mem_cons_of_mem c he), chop]
    rfl

/-- Cutting after joining chops every line but the last. -/
theorem pieces_intercalate_concat {parts : List (List α)} {last : List α}
    (hends : ∀ part ∈ parts, ∀ c ∈ part, ends c = false) (hlast : ∀ c ∈ last, ends c = false) (hcr : cr ∉ last)
    (hlf : ends lf = true) (hne : lf ≠ cr) :
    pieces ends cr lf ([lf].intercalate (parts ++ [last])) = parts.map (chop cr) ++ [last] := by
  induction parts with
  | nil => simpa using pieces_of_not_ends hlast hcr
  | cons part parts ih =>
    rw [List.cons_append, List.intercalate_cons_of_ne_nil (by simp), List.append_assoc, List.singleton_append,
      pieces_append_lf (hends part (by simp)) hlf hne, ih fun p hp => hends p (List.mem_cons_of_mem part hp)]
    rfl

/-- The second text is the first without some of its `cr`. -/
inductive Drops (cr : α) : List α → List α → Prop
  | nil : Drops cr [] []
  | keep (c : α) {text text' : List α} : Drops cr text text' → Drops cr (c :: text) (c :: text')
  | drop {text text' : List α} : Drops cr text text' → Drops cr (cr :: text) text'

/-- Joining the chopped pieces of a text leaves out some of its `cr`. -/
theorem drops_intercalate_chop (hlf : ∀ c, ends c = true → c = lf) (text : List α) :
    Drops cr text ([lf].intercalate ((pieces ends cr lf text).map (chop cr))) := by
  have hne : ∀ text, (pieces ends cr lf text).map (chop cr) ≠ [] := fun text => by simpa using pieces_ne_nil text
  induction text using pieces.induct ends cr lf with
  | case1 => simpa [pieces, chop] using Drops.nil
  | case2 c h =>
    obtain rfl := hlf c h
    simpa [pieces, h, chop] using Drops.keep c (Drops.nil : Drops cr [] [])
  | case3 c h =>
    rw [pieces, if_neg h]
    by_cases hc : c = cr
    · subst hc
      simpa [chop] using Drops.drop (Drops.nil : Drops c [] [])
    · simpa [chop, hc] using Drops.keep c (Drops.nil : Drops cr [] [])
  | case4 c d rest h ih =>
    obtain ⟨rfl, rfl⟩ := h
    rw [pieces, if_pos ⟨rfl, rfl⟩, List.map_cons, List.intercalate_cons_of_ne_nil (hne rest)]
    exact .drop (.keep d ih)
  | case5 c d rest h hc ih =>
    obtain rfl := hlf c hc
    rw [pieces, if_neg h, if_pos hc, List.map_cons, List.intercalate_cons_of_ne_nil (hne (d :: rest))]
    exact .keep c ih
  | case6 c d rest h hc ih =>
    rw [pieces, if_neg h, if_neg hc]
    cases hparts : pieces ends cr lf (d :: rest) with
    | nil => exact absurd (by rw [hparts]; rfl) (hne (d :: rest))
    | cons first others =>
      rw [hparts] at ih
      have hcons : ∀ line : List α, [lf].intercalate ((c :: line) :: others.map (chop cr)) =
          c :: [lf].intercalate (line :: others.map (chop cr)) := by
        intro line
        cases others <;> simp [List.intercalate_cons_cons]
      cases first with
      | nil =>
        by_cases hcr : c = cr
        · -- the end of a line
          subst hcr
          simpa [chop] using Drops.drop ih
        · simpa [chop, hcr, hcons] using Drops.keep c ih
      | cons e first => simpa [chop, hcons] using Drops.keep c ih

end AgentUE.Data.Lines
