import Mathlib.Data.List.Forall2
import ScriptWorks.Diagnostic.Render
import ScriptWorks.Proofs.Text.Basic

/-!
# Lines and blocks of rendered problems

A problem is rendered as one line, or as one block of lines none of which is empty. So the line ends of a
rendering tell the problems apart, and two line ends in a row tell the blocks apart, whatever the messages
hold.
-/

namespace ScriptWorks

namespace Text

variable {sep cs ds : List Char}

/-! ## Cutting at a text -/

/-- Cuts at every place where `sep` stands, from the left; places do not overlap. `skip` is the number of
characters still inside the last one. -/
def cutAt (sep : List Char) (skip : Nat) : List Char → List (List Char)
  | [] => [[]]
  | c :: cs =>
    match skip with
    | k + 1 => cutAt sep k cs
    | 0 =>
      if sep.isPrefixOf (c :: cs) then [] :: cutAt sep (sep.length - 1) cs
      else (cutAt sep 0 cs).modifyHead (c :: ·)

theorem cutAt_skip (ds : List Char) : cutAt sep cs.length (cs ++ ds) = cutAt sep 0 ds := by
  induction cs with
  | nil => rfl
  | cons c cs ih => exact ih

/-- The text at which it is cut begins a new piece. -/
theorem cutAt_append_self (hsep : sep ≠ []) (ds : List Char) :
    cutAt sep 0 (sep ++ ds) = [] :: cutAt sep 0 ds := by
  obtain ⟨c, rest, rfl⟩ := List.exists_cons_of_ne_nil hsep
  have hprefix : (c :: rest).isPrefixOf (c :: (rest ++ ds)) = true :=
    List.isPrefixOf_iff_prefix.mpr (List.prefix_append (c :: rest) ds)
  rw [List.cons_append, cutAt, if_pos hprefix]
  exact congrArg ([] :: ·) (cutAt_skip ds)

/-- What comes before the first place belongs to the first piece. -/
theorem cutAt_append (h : ∀ x y, cs = x ++ y → y ≠ [] → ¬ sep <+: y ++ ds) :
    cutAt sep 0 (cs ++ ds) = (cutAt sep 0 ds).modifyHead (cs ++ ·) := by
  induction cs with
  | nil => exact (congrFun List.modifyHead_id _).symm
  | cons c cs ih =>
      have hhere : ¬ sep.isPrefixOf (c :: (cs ++ ds)) = true := fun hprefix =>
        h [] (c :: cs) rfl (List.cons_ne_nil c cs) (List.isPrefixOf_iff_prefix.mp hprefix)
      have hlater := ih fun x y hcs => h (c :: x) y (congrArg (c :: ·) hcs)
      rw [List.cons_append, cutAt, if_neg hhere, hlater, List.modifyHead_modifyHead]
      rfl

/-! ## Blocks -/

/-- No line end in a text without empty lines comes right before another one, or last. -/
theorem not_prefix_of_lines (h : [] ∉ cut '\n' cs) {x y : List Char} (hcs : cs = x ++ y) (hy : y ≠ [])
    (ds : List Char) : ¬ ['\n', '\n'] <+: y ++ ds := by
  rintro ⟨rest, hrest⟩
  obtain ⟨c, z, rfl⟩ := List.exists_cons_of_ne_nil hy
  obtain ⟨rfl, hz⟩ := List.cons.inj hrest
  rw [hcs, cut_append] at h
  refine h (List.mem_append_right _ ?_)
  cases z with
  | nil => exact List.mem_singleton_self []
  | cons d z =>
      obtain ⟨rfl, -⟩ := List.cons.inj hz
      rw [cut, if_pos rfl]
      exact List.mem_cons_self

/-- Blocks without empty lines are found again in the text with two line ends between them. -/
theorem cutAt_blocks {blocks : List (List Char)} (hne : blocks ≠ [])
    (h : ∀ block ∈ blocks, [] ∉ cut '\n' block) :
    cutAt ['\n', '\n'] 0 (['\n', '\n'].intercalate blocks) = blocks := by
  induction blocks with
  | nil => exact absurd rfl hne
  | cons block blocks ih =>
      obtain ⟨hblock, hblocks⟩ := List.forall_mem_cons.mp h
      have happend (ds : List Char) : cutAt ['\n', '\n'] 0 (block ++ ds) =
          (cutAt ['\n', '\n'] 0 ds).modifyHead (block ++ ·) :=
        cutAt_append fun _ _ hxy hy => not_prefix_of_lines hblock hxy hy ds
      cases blocks with
      | nil =>
          have hlast := happend []
          rw [List.append_nil] at hlast
          rw [List.intercalate_singleton, hlast]
          simp [cutAt]
      | cons next blocks =>
          rw [List.intercalate_cons_cons, List.append_assoc, happend,
            cutAt_append_self (by decide), ih (List.cons_ne_nil next blocks) hblocks]
          simp

/-! ## Lines -/

theorem notMem_of_mem_lines {line : List Char} (h : line ∈ lines cs) : '\n' ∉ line := by
  rw [lines, List.mem_append] at h
  rcases h with h | h
  · obtain ⟨piece, hpiece, rfl⟩ := List.mem_map.mp h
    have hno := notMem_of_mem_cut (List.dropLast_subset _ hpiece)
    unfold dropCarriageReturn
    split
    · exact fun hmem => hno (List.dropLast_subset _ hmem)
    · exact hno
  · have hlast := (Option.filter_eq_some_iff.mp (Option.mem_toList.mp h)).1
    exact notMem_of_mem_cut (List.mem_of_getLast? hlast)

theorem trim_subset (cs : List Char) : trim cs ⊆ cs := by
  have hend : trim cs ⊆ trimStart cs := (List.rdropWhile_prefix isBlank (trimStart cs)).subset
  exact List.Subset.trans hend (List.dropWhile_sublist _).subset

end Text

namespace Problem

variable {p : Problem}

/-- Neither the file nor the code holds a line end. -/
def IsFlat (p : Problem) : Prop := '\n' ∉ p.file.toList ∧ '\n' ∉ p.code.toList

instance (p : Problem) : Decidable p.IsFlat := inferInstanceAs (Decidable (_ ∧ _))

/-- File, line and column. -/
def placeText (p : Problem) : String := s!"{p.file}:{p.line}:{p.column}"

theorem notMem_placeText (h : p.IsFlat) : '\n' ∉ p.placeText.toList := by
  have hdigits (n : Nat) : '\n' ∉ Nat.toDigits 10 n := by
    intro hmem
    exact absurd (Text.isDigit_of_mem_repr (Nat.toList_repr ▸ hmem)) (by decide)
  simp [placeText, toString, h.1, hdigits]

/-! ## The line of a problem -/

/-- A message in one line has no line end, whatever the message holds. -/
theorem notMem_inlineMessage (p : Problem) : '\n' ∉ p.inlineMessage.toList := by
  rw [inlineMessage, String.toList_intercalate]
  refine Text.notMem_intercalate (by decide) fun words hwords => ?_
  simp only [List.mem_map, List.mem_filter] at hwords
  obtain ⟨_, ⟨_, ⟨⟨line, hline, rfl⟩, -⟩, rfl⟩, rfl⟩ := hwords
  rw [String.toList_ofList]
  exact fun hmem => Text.notMem_of_mem_lines hline (Text.trim_subset line hmem)

/-- What stands between the place and the code of a problem in its line. -/
def lineMiddle (p : Problem) (message : String) : String := s!" - {p.severity.name}: {message} "

theorem toList_lineWith (p : Problem) (message : String) : (p.lineWith message).toList =
    p.placeText.toList ++ (p.lineMiddle message).toList ++ ("(" ++ p.code ++ ")").toList := by
  simp [lineWith, placeText, lineMiddle, toString]

theorem notMem_lineWith (h : p.IsFlat) {message : String} (hmessage : '\n' ∉ message.toList) :
    '\n' ∉ (p.lineWith message).toList := by
  have hseverity : '\n' ∉ p.severity.name.toList := by cases p.severity <;> decide
  have hmiddle : '\n' ∉ (p.lineMiddle message).toList := by
    simp [lineMiddle, toString, hmessage, hseverity]
  simp [toList_lineWith, notMem_placeText h, hmiddle, h.2]

/-! ## The block of a problem -/

/-- What stands before the place in the first line of a block. -/
def headerStart (p : Problem) : String :=
  s!"{colour p.severity}{icon p.severity} {p.severity.name}{plain} "

theorem toList_header (p : Problem) :
    p.header.toList = p.headerStart.toList ++ p.placeText.toList := by
  simp [header, headerStart, placeText, toString]

/-- The last line of a block. -/
def codeLine (p : Problem) : String := s!"  {dim}{p.code}{plain}"

/-- The lines of a block. -/
def blockPieces (p : Problem) : List (List Char) :=
  p.header.toList :: p.messageLines.map (' ' :: ' ' :: ·) ++ [p.codeLine.toList]

theorem map_toList_blockLines (p : Problem) : p.blockLines.map String.toList = p.blockPieces := by
  simp [blockLines, blockPieces, codeLine, Function.comp_def]

/-- No line of a block is empty, and none holds a line end. -/
theorem of_mem_blockPieces (h : p.IsFlat) {line : List Char} (hline : line ∈ p.blockPieces) :
    line ≠ [] ∧ '\n' ∉ line := by
  have hstart : p.headerStart.toList ≠ [] ∧ '\n' ∉ p.headerStart.toList := by
    unfold headerStart
    cases p.severity <;> decide +kernel
  have hends : '\n' ∉ dim.toList ∧ '\n' ∉ plain.toList := by decide +kernel
  simp only [blockPieces, List.cons_append, List.mem_cons, List.mem_append, List.mem_map,
    List.not_mem_nil, or_false] at hline
  rcases hline with rfl | ⟨line, hmessage, rfl⟩ | rfl
  · rw [toList_header]
    simp [hstart.1, hstart.2, notMem_placeText h]
  · simp [Text.notMem_of_mem_lines hmessage]
  · simp [codeLine, toString, hends, h.2]

theorem toList_block (p : Problem) :
    (String.intercalate "\n" p.blockLines).toList = Text.glue '\n' p.blockPieces := by
  rw [String.toList_intercalate, map_toList_blockLines, Text.glue_eq_intercalate]
  rfl

theorem cut_block (h : p.IsFlat) :
    Text.cut '\n' (String.intercalate "\n" p.blockLines).toList = p.blockPieces := by
  rw [toList_block]
  exact Text.cut_glue (List.cons_ne_nil _ _) fun line hline => (of_mem_blockPieces h hline).2

end Problem

/-- Cut at its line ends, the rendering as text is one line for each problem, from its place to its code.
Cut at two line ends in a row, the formatted rendering is one block for each problem: its header, the lines
of its message, indented, and its code. -/
theorem renderings_are_laid_out (ps : List Problem) (hne : ps ≠ []) (h : ∀ p ∈ ps, p.IsFlat) :
    List.Forall₂ (fun line (p : Problem) => line = (p.lineWith p.inlineMessage).toList ∧
        p.placeText.toList <+: line ∧ ("(" ++ p.code ++ ")").toList <:+ line)
      (Text.cut '\n' (render ps .text).toList) ps ∧
    List.Forall₂ (fun block (p : Problem) =>
        Text.cut '\n' block =
          p.header.toList :: p.messageLines.map (' ' :: ' ' :: ·) ++ [p.codeLine.toList] ∧
        p.placeText.toList <:+ p.header.toList)
      (Text.cutAt ['\n', '\n'] 0 (render ps .formatted).toList) ps := by
  constructor
  · have htext : (render ps .text).toList =
        Text.glue '\n' (ps.map fun p => (p.lineWith p.inlineMessage).toList) := by
      rw [Text.glue_eq_intercalate, render, String.toList_intercalate, List.map_map]
      rfl
    have hlines : ∀ line ∈ ps.map fun p => (p.lineWith p.inlineMessage).toList, '\n' ∉ line := by
      intro line hline
      obtain ⟨p, hp, rfl⟩ := List.mem_map.mp hline
      exact Problem.notMem_lineWith (h p hp) p.notMem_inlineMessage
    rw [htext, Text.cut_glue (by simpa using hne) hlines, List.forall₂_map_left_iff, List.forall₂_same]
    intro p _
    rw [Problem.toList_lineWith]
    exact ⟨rfl, List.append_assoc .. ▸ List.prefix_append _ _, List.suffix_append _ _⟩
  · have htext : (render ps .formatted).toList = ['\n', '\n'].intercalate
        (ps.map fun p => (String.intercalate "\n" p.blockLines).toList) := by
      rw [render, String.toList_intercalate, List.map_map]
      rfl
    have hblocks : ∀ block ∈ ps.map fun p => (String.intercalate "\n" p.blockLines).toList,
        [] ∉ Text.cut '\n' block := by
      intro block hblock
      obtain ⟨p, hp, rfl⟩ := List.mem_map.mp hblock
      rw [Problem.cut_block (h p hp)]
      exact fun hmem => (Problem.of_mem_blockPieces (h p hp) hmem).1 rfl
    rw [htext, Text.cutAt_blocks (by simpa using hne) hblocks, List.forall₂_map_left_iff,
      List.forall₂_same]
    intro p hp
    exact ⟨Problem.cut_block (h p hp), p.toList_header ▸ List.suffix_append _ _⟩

/-- Messages with empty lines, blank lines and line ends at both ends. -/
theorem renderings_are_laid_out_of_two :
    let ps : List Problem :=
      [⟨"a.ts", 1, 7, "\n\nType 'A'\r\n\n   is not 'B'. \n", "TS2322", .error⟩,
        ⟨"b.ts", 0, 0, "\n\n", "TS1005", .warning⟩]
    ps ≠ [] ∧ (∀ p ∈ ps, p.IsFlat) ∧
      (Text.cut '\n' (render ps .text).toList).length = 2 ∧
      (Text.cutAt ['\n', '\n'] 0 (render ps .formatted).toList).length = 2 := by
  intro ps
  have hne : ps ≠ [] := List.cons_ne_nil _ _
  have hflat : ∀ p ∈ ps, p.IsFlat := by decide +kernel
  obtain ⟨hlines, hblocks⟩ := renderings_are_laid_out ps hne hflat
  exact ⟨hne, hflat, hlines.length_eq, hblocks.length_eq⟩

example : render [⟨"a.ts", 1, 7, "\n Type 'A'\r\n\nis not 'B'.\n", "TS2322", .error⟩] .text =
    "a.ts:1:7 - error: Type 'A' is not 'B'. (TS2322)" := by decide +kernel

end ScriptWorks
