import Mathlib.Data.List.Basic

/-!
# Cutting strings at a separator

The few string functions that dotted paths need, with the same meaning in Python (`partition`,
`split`, `removeprefix`), Go (`Cut`, `Split`, `TrimPrefix`) and JavaScript. The facts relate the whole
split to the first cut, and both to a known prefix.
-/

namespace AgentUE.Data.Text

/-- Whether `p` is a prefix of `s`. -/
def hasPrefix (s p : String) : Bool := p.toList.isPrefixOf s.toList

/-- `s` without the prefix `p`, or `s` itself when `p` is not a prefix. -/
def dropPrefix (s p : String) : String :=
  if hasPrefix s p then String.ofList (s.toList.drop p.toList.length) else s

/-- Whether the character `c` occurs in `s`. -/
def contains (s : String) (c : Char) : Bool := s.toList.elem c

/-- The parts before and after the first `sep`; `none` when there is no `sep`. -/
def cut (s : String) (sep : Char) : Option (String × String) :=
  match s.toList.dropWhile (· != sep) with
  | [] => none
  | _ :: after => some (String.ofList (s.toList.takeWhile (· != sep)), String.ofList after)

/-- The parts between the occurrences of `sep`. -/
def split (s : String) (sep : Char) : List String := (s.toList.splitOn sep).map String.ofList

theorem splitOn_eq_cons_of_dropWhile {l : List Char} {sep c : Char} {after : List Char}
    (h : l.dropWhile (· != sep) = c :: after) :
    l.splitOn sep = l.takeWhile (· != sep) :: after.splitOn sep := by
  induction l with
  | nil => simp at h
  | cons d l ih =>
    by_cases hd : d = sep
    · subst hd
      simp only [List.dropWhile_cons, bne_self_eq_false, Bool.false_eq_true, if_false,
        List.cons.injEq] at h
      rw [← h.2]
      simp [List.splitOn, List.splitOnP_cons_eq_if_modifyHead]
    · have hd' : (d != sep) = true := by simpa using hd
      simp only [List.dropWhile_cons, hd', if_true] at h
      have hrec := ih h
      simp only [List.splitOn] at hrec ⊢
      rw [List.splitOnP_cons_eq_if_modifyHead, hrec]
      simp [hd]

/-- The first part of a split is the part before the first cut. -/
theorem split_of_cut {s a b : String} {sep : Char} (h : cut s sep = some (a, b)) :
    split s sep = a :: split b sep := by
  unfold cut at h
  split at h
  · exact absurd h (by simp)
  · rename_i c after hdrop
    simp only [Option.some.injEq, Prod.mk.injEq] at h
    obtain ⟨rfl, rfl⟩ := h
    simp only [split, splitOn_eq_cons_of_dropWhile hdrop, List.map_cons, String.toList_ofList]

/-- Without a separator the split is the string itself. -/
theorem split_of_not_contains {s : String} {sep : Char} (h : contains s sep = false) :
    split s sep = [s] := by
  have hmem : sep ∉ s.toList := by simpa [contains] using h
  have : s.toList.splitOn sep = [s.toList] := by
    rw [List.splitOn]
    exact List.splitOnP_eq_singleton fun c hc => by
      simpa using fun hcs : c = sep => hmem (hcs ▸ hc)
  simp [split, this]

theorem split_ne_nil (s : String) (sep : Char) : split s sep ≠ [] := by
  simp [split, List.splitOn, List.splitOnP_ne_nil]

/-- A prefix of the same length is the whole string. -/
theorem length_eq_iff_of_hasPrefix {s p : String} (h : hasPrefix s p = true) :
    s.toList.length = p.toList.length ↔ s = p := by
  have hpre := List.isPrefixOf_iff_prefix.mp h
  constructor
  · intro hlen
    exact (String.toList_injective (hpre.eq_of_length hlen.symm)).symm
  · rintro rfl
    rfl

/-- Behind a prefix that is not the whole string there is something left. -/
theorem dropPrefix_ne_empty {s p : String} (h : hasPrefix s p = true) (hne : s ≠ p) : dropPrefix s p ≠ "" := by
  obtain ⟨rest, hrest⟩ := List.isPrefixOf_iff_prefix.mp h
  rintro hempty
  rw [dropPrefix, if_pos h, ← hrest, List.drop_left] at hempty
  have hnil : rest = [] := by simpa using congrArg String.toList hempty
  refine hne (String.toList_injective ?_)
  rw [← hrest, hnil, List.append_nil]

/-- A prefix that ends at its only separator is what the first cut removes. -/
theorem cut_of_hasPrefix {s p root : String} {sep : Char} (hp : p.toList = root.toList ++ [sep])
    (hroot : contains root sep = false) (h : hasPrefix s p = true) :
    cut s sep = some (root, dropPrefix s p) := by
  obtain ⟨rest, hrest⟩ := List.isPrefixOf_iff_prefix.mp h
  have hmem : sep ∉ root.toList := by simpa [contains] using hroot
  have hall : ∀ c ∈ root.toList, (c != sep) = true := fun c hc => by
    simpa using fun hcs : c = sep => hmem (hcs ▸ hc)
  have hs : s.toList = root.toList ++ sep :: rest := by
    rw [← hrest, hp, List.append_assoc, List.singleton_append]
  have hdrop : s.toList.dropWhile (· != sep) = sep :: rest := by
    rw [hs, List.dropWhile_append_of_pos hall]
    simp
  have htake : s.toList.takeWhile (· != sep) = root.toList := by
    rw [hs, List.takeWhile_append_of_pos hall]
    simp
  have hdrop' : s.toList.drop p.toList.length = rest := by
    rw [← hrest]
    simp
  simp only [cut, hdrop, htake, dropPrefix, h, if_true, hdrop', String.ofList_toList]

theorem hasPrefix_append (p t : String) : hasPrefix (p ++ t) p = true := by
  simp [hasPrefix, List.isPrefixOf_iff_prefix]

/-- Dropping a prefix undoes putting it in front. -/
theorem dropPrefix_append (p t : String) : dropPrefix (p ++ t) p = t := by
  simp [dropPrefix, hasPrefix_append]

/-- The masks of block writes. -/
theorem cut_block {mask : String} (h : hasPrefix mask "block." = true) :
    cut mask '.' = some ("block", dropPrefix mask "block.") :=
  cut_of_hasPrefix rfl (by decide) h

/-- The masks of metadata writes. -/
theorem cut_meta {mask : String} (h : hasPrefix mask "meta." = true) :
    cut mask '.' = some ("meta", dropPrefix mask "meta.") :=
  cut_of_hasPrefix rfl (by decide) h

end AgentUE.Data.Text
