import Conform.Path
/-!
# Paths and their texts

No piece of a text holds a separator, and pieces without separators come back
from their join. So a path is read back from its text exactly when no segment
holds a slash and none that is empty stands first: the slash behind an empty
first segment would pass for the mark of the root.
-/

namespace Conform

theorem pieces_eq_splitOn (cs : List Char) : pieces cs = cs.splitOn separator := by
  induction cs with
  | nil => rfl
  | cons c rest ih =>
    rw [pieces, List.splitOn_cons_eq_if_modifyHead, ih]
    by_cases h : c = separator
    · rw [if_pos h, if_pos (beq_iff_eq.mpr h)]
    · rw [if_neg h, if_neg fun heq => h (eq_of_beq heq)]
      cases hsplit : rest.splitOn separator with
      | nil => exact absurd hsplit (List.splitOn_ne_nil _ _)
      | cons piece others => rfl

theorem joined_eq_intercalate (parts : List (List Char)) :
    joined parts = [separator].intercalate parts := by
  induction parts with
  | nil => rfl
  | cons part others ih =>
    cases others with
    | nil => rw [joined, List.intercalate_singleton]
    | cons next more =>
      show part ++ separator :: joined (next :: more) = _
      rw [ih, List.intercalate_cons_cons, List.append_assoc, List.singleton_append]

/-- Parts without separators are the pieces of their join. -/
theorem pieces_joined {parts : List (List Char)} (hne : parts ≠ [])
    (hparts : ∀ part ∈ parts, separator ∉ part) : pieces (joined parts) = parts := by
  rw [pieces_eq_splitOn, joined_eq_intercalate, List.splitOn_intercalate separator hparts hne]

theorem not_mem_of_mem_pieces {cs part : List Char} (h : part ∈ pieces cs) : separator ∉ part := by
  induction cs generalizing part with
  | nil =>
    rw [pieces, List.mem_singleton] at h
    rw [h]
    exact List.not_mem_nil
  | cons c rest ih =>
    rw [pieces] at h
    split at h
    · rcases List.mem_cons.mp h with rfl | h
      · exact List.not_mem_nil
      · exact ih h
    · next hc =>
      split at h
      · next hnil => exact absurd hnil (pieces_ne_nil rest)
      · next piece others hpieces =>
        rw [hpieces] at ih
        rcases List.mem_cons.mp h with rfl | h
        · rw [List.mem_cons, not_or]
          exact ⟨fun heq => hc heq.symm, ih List.mem_cons_self⟩
        · exact ih (List.mem_cons_of_mem _ h)

namespace Path

/-- A text without one slash at its front, if there is one. -/
def unmarked (text : String) : String :=
  if text.toList.head? = some '/' then String.ofList text.toList.tail else text

theorem toList_unmarked (text : String) : (unmarked text).toList = withoutRootMark text.toList := by
  rw [unmarked]
  cases htext : text.toList with
  | nil => simp [withoutRootMark, htext]
  | cons c rest =>
    by_cases h : c = '/'
    · simp [withoutRootMark, separator, h]
    · simp [withoutRootMark, separator, h, htext]

theorem parse_eq (text : String) : parse text =
    if unmarked text = "" then empty else ⟨(pieces (unmarked text).toList).map String.ofList⟩ := by
  rw [parse, ← toList_unmarked]
  split
  · next h =>
    rw [String.toList_eq_nil_iff] at h
    rw [if_pos h]
  · next c rest h =>
    have hne : unmarked text ≠ "" := fun heq => by
      rw [heq] at h
      cases h
    rw [if_neg hne, h]

theorem map_ofList_toList (segments : List String) :
    (segments.map String.toList).map String.ofList = segments := by
  rw [List.map_map]
  exact List.map_id'' (fun segment => String.ofList_toList) segments

theorem map_toList_ofList (parts : List (List Char)) :
    (parts.map String.ofList).map String.toList = parts := by
  rw [List.map_map]
  exact List.map_id'' (fun part => String.toList_ofList) parts

theorem text_parse (text : String) : (parse text).text = unmarked text := by
  rw [parse_eq]
  split
  · next h =>
    rw [h]
    rfl
  · rw [Path.text, map_toList_ofList, joined_pieces, String.ofList_toList]

theorem parse_eq_parse_iff (text other : String) :
    parse text = parse other ↔ unmarked text = unmarked other := by
  constructor
  · intro h
    rw [← text_parse, h, text_parse]
  · intro h
    rw [parse_eq, h, ← parse_eq]

theorem not_mem_of_mem_parse {text segment : String} (h : segment ∈ (parse text).segments) :
    '/' ∉ segment.toList := by
  rw [parse_eq] at h
  split at h
  · cases h
  · obtain ⟨part, hpart, rfl⟩ := List.mem_map.mp h
    rw [String.toList_ofList]
    exact not_mem_of_mem_pieces hpart

theorem head?_text {first : String} (h : first ≠ "") (others : List String) :
    (Path.text ⟨first :: others⟩).toList.head? = first.toList.head? := by
  cases hfirst : first.toList with
  | nil => exact absurd (String.toList_eq_nil_iff.mp hfirst) h
  | cons c rest => cases others <;> simp [Path.text, joined, hfirst]

theorem text_ne_empty {first : String} (h : first ≠ "") (others : List String) :
    Path.text ⟨first :: others⟩ ≠ "" := by
  intro heq
  have hhead := head?_text h others
  rw [heq] at hhead
  exact h (String.toList_eq_nil_iff.mp (List.head?_eq_none_iff.mp hhead.symm))

theorem unmarked_text_of_ne {first : String} (h : first ≠ "") (hslash : '/' ∉ first.toList)
    (others : List String) : unmarked (Path.text ⟨first :: others⟩) = Path.text ⟨first :: others⟩ := by
  rw [unmarked, head?_text h, if_neg]
  exact fun hmark => hslash (List.mem_of_mem_head? hmark)

/-- An empty segment in front of others puts a slash at the front of the text. -/
theorem unmarked_text_of_eq (next : String) (others : List String) :
    unmarked (Path.text ⟨"" :: next :: others⟩) = Path.text ⟨next :: others⟩ := by
  simp [Path.text, joined, unmarked, separator]

theorem parse_text {path : Path} (hslash : ∀ segment ∈ path.segments, '/' ∉ segment.toList)
    (hfirst : path.first? ≠ some "") : parse path.text = path := by
  obtain ⟨segments⟩ := path
  cases segments with
  | nil => rfl
  | cons first others =>
    have hne : first ≠ "" := fun heq => hfirst (congrArg some heq)
    have hpieces : pieces (joined ((first :: others).map String.toList)) =
        (first :: others).map String.toList := by
      refine pieces_joined (List.cons_ne_nil _ _) fun part hpart => ?_
      obtain ⟨segment, hsegment, rfl⟩ := List.mem_map.mp hpart
      exact hslash segment hsegment
    rw [parse_eq, unmarked_text_of_ne hne (hslash first List.mem_cons_self),
      if_neg (text_ne_empty hne others), Path.text, String.toList_ofList, hpieces,
      map_ofList_toList]

theorem first?_ne_of_parse_text {path : Path} (h : parse path.text = path) :
    path.first? ≠ some "" := by
  obtain ⟨segments⟩ := path
  intro hfirst
  obtain ⟨others, rfl⟩ := List.head?_eq_some_iff.mp hfirst
  cases others with
  | nil => cases h
  | cons next more =>
    have hsame := text_parse (Path.text ⟨"" :: next :: more⟩)
    rw [h, unmarked_text_of_eq] at hsame
    have hlength := congrArg (fun text => text.toList.length) hsame
    simp [Path.text, joined] at hlength

/-- A path is read back from its text exactly when no segment holds a slash and the path does not
start with an empty one. A text is written back up to one slash at its front, so texts that differ
in more are those of different paths. -/
theorem read_and_written :
    (∀ path : Path, parse path.text = path ↔
      (∀ segment ∈ path.segments, '/' ∉ segment.toList) ∧ path.first? ≠ some "") ∧
    (∀ text : String, (parse text).text = unmarked text) ∧
    ∀ text other : String, parse text = parse other ↔ unmarked text = unmarked other := by
  refine ⟨fun path => ⟨fun h => ⟨fun segment hsegment => ?_, first?_ne_of_parse_text h⟩, ?_⟩,
    text_parse, parse_eq_parse_iff⟩
  · rw [← h] at hsegment
    exact not_mem_of_mem_parse hsegment
  · rintro ⟨hslash, hfirst⟩
    exact parse_text hslash hfirst

end Path

end Conform
