import ScriptWorks.Checker.Output
import ScriptWorks.Proofs.Text.Basic

/-!
# Message chains of a checker

A checker tells the causes of a diagnostic apart by their depth alone. They are laid on a stack of chains
that may still get causes, deeper ones on top. No text is lost or moved on that stack, and the depths of a
chain give that chain back.
-/

namespace ScriptWorks

namespace MessageChain

mutual

/-- The texts, each before those of its causes. -/
def texts : MessageChain → List String
  | .mk text next => text :: textsAll next

/-- The texts of several chains, one after the other. -/
def textsAll : List MessageChain → List String
  | [] => []
  | c :: cs => c.texts ++ textsAll cs

end

theorem textsAll_append (cs ds : List MessageChain) :
    textsAll (cs ++ ds) = textsAll cs ++ textsAll ds := by
  induction cs with
  | nil => rfl
  | cons c cs ih => rw [List.cons_append, textsAll, ih, textsAll, List.append_assoc]

mutual

theorem entries_texts (depth : Nat) : (c : MessageChain) → (c.entries depth).map Prod.snd = c.texts
  | .mk text next => by
      rw [entries, List.map_cons, entriesAll_texts (depth + 1) next, texts]

theorem entriesAll_texts (depth : Nat) :
    (cs : List MessageChain) → (entriesAll depth cs).map Prod.snd = textsAll cs
  | [] => rfl
  | c :: cs => by
      rw [entriesAll, List.map_append, entries_texts depth c, entriesAll_texts depth cs, textsAll]

end

mutual

theorem le_of_mem_entries {depth : Nat} {e : Nat × String} :
    (c : MessageChain) → e ∈ c.entries depth → depth ≤ e.1
  | .mk text next, h => by
      rw [entries, List.mem_cons] at h
      rcases h with rfl | h
      · exact Nat.le_refl depth
      · exact Nat.le_of_succ_le (le_of_mem_entriesAll next h)

theorem le_of_mem_entriesAll {depth : Nat} {e : Nat × String} :
    (cs : List MessageChain) → e ∈ entriesAll depth cs → depth ≤ e.1
  | [], h => absurd h List.not_mem_nil
  | c :: cs, h => by
      rw [entriesAll, List.mem_append] at h
      exact h.elim (le_of_mem_entries c) (le_of_mem_entriesAll cs)

end

end MessageChain

/-- The texts of a message, each before those of its causes. -/
def Message.texts : Message → List String
  | .text s => [s]
  | .chain c => c.texts

namespace Checker

/-! ## The stack -/

/-- Chains that may still get causes, with their depths: the deepest, and those that it lies on. -/
abbrev Stack := (Nat × MessageChain) × List (Nat × MessageChain)

/-- The stack when it is ready for a cause of this depth. -/
def settled (depth : Nat) (s : Stack) : Stack := settle depth s.1 s.2

def depths (s : Stack) : List Nat := (s.1 :: s.2).map Prod.fst

/-- The texts from the bottom up, in which order they were laid down. -/
def textsOf (s : Stack) : List String := (s.1 :: s.2).reverse.flatMap fun e => e.2.texts

/-- Every chain lies on a less deep one, down to that of the head. -/
structure Descending (s : Stack) : Prop where
  ordered : (depths s).Pairwise (· > ·)
  ground : 0 ∈ depths s

variable {s : Stack} {depth : Nat}

namespace Descending

theorem of_head (c : MessageChain) : Descending ((0, c), []) :=
  ⟨List.pairwise_singleton _ _, List.mem_singleton_self 0⟩

/-- What a cause is laid on is less deep. -/
theorem settled (h : Descending s) (hdepth : 0 < depth) :
    (settled depth s).1.1 < depth ∧ Descending (settled depth s) := by
  obtain ⟨top, rest⟩ := s
  unfold Checker.settled
  fun_induction settle depth top rest with
  | case1 top =>
      have hzero : top.1 = 0 := (List.mem_singleton.mp h.ground).symm
      exact ⟨hzero ▸ hdepth, h⟩
  | case2 top parent rest hdeep ih =>
      refine ih ⟨(List.pairwise_cons.mp h.ordered).2, ?_⟩
      -- The head of the diagnostic is not what is taken off.
      refine (List.mem_cons.mp h.ground).resolve_left fun hzero => ?_
      have hle : depth ≤ 0 := hzero ▸ hdeep
      omega
  | case3 top parent rest hdeep => exact ⟨Nat.lt_of_not_le hdeep, h⟩

theorem addDetail (h : Descending s) (detail : Nat × String) : Descending (addDetail s detail) := by
  obtain ⟨hlt, hsettled⟩ := h.settled (show 0 < max detail.1 1 by omega)
  refine ⟨List.pairwise_cons.mpr ⟨fun d hd => ?_, hsettled.ordered⟩,
    List.mem_cons_of_mem _ hsettled.ground⟩
  rcases List.mem_cons.mp hd with rfl | hd
  · exact hlt
  · exact Nat.lt_trans ((List.pairwise_cons.mp hsettled.ordered).1 d hd) hlt

theorem foldl (h : Descending s) (details : List (Nat × String)) :
    Descending (details.foldl Checker.addDetail s) := by
  induction details generalizing s with
  | nil => exact h
  | cons detail details ih => exact ih (h.addDetail detail)

/-- When all causes are given away, only the chain of the head is left. -/
theorem settled_one (h : Descending s) : (Checker.settled 1 s).2 = [] := by
  obtain ⟨hlt, hsettled⟩ := h.settled Nat.one_pos
  refine List.eq_nil_iff_forall_not_mem.mpr fun e he => ?_
  have hdeeper := (List.pairwise_cons.mp hsettled.ordered).1 e.1 (List.mem_map_of_mem he)
  omega

end Descending

/-! ## Texts on the stack -/

theorem texts_addCause (c d : MessageChain) : (addCause c d).texts = c.texts ++ d.texts := by
  obtain ⟨text, next⟩ := c
  simp only [addCause, MessageChain.text, MessageChain.next, MessageChain.texts,
    MessageChain.textsAll_append, MessageChain.textsAll, List.append_nil, List.cons_append]

theorem textsOf_settled (depth : Nat) (s : Stack) : textsOf (settled depth s) = textsOf s := by
  obtain ⟨top, rest⟩ := s
  unfold settled
  fun_induction settle depth top rest with
  | case1 top => rfl
  | case2 top parent rest _ ih =>
      rw [ih]
      simp only [textsOf, List.reverse_cons, List.flatMap_append, List.flatMap_singleton,
        texts_addCause, List.append_assoc]
  | case3 top parent rest => rfl

theorem textsOf_addDetail (s : Stack) (detail : Nat × String) :
    textsOf (addDetail s detail) = textsOf s ++ [detail.2] := by
  rw [← textsOf_settled (max detail.1 1) s]
  simp only [addDetail, settled, textsOf, List.reverse_cons, List.flatMap_append,
    List.flatMap_singleton, MessageChain.texts, MessageChain.textsAll]

theorem textsOf_foldl (s : Stack) (details : List (Nat × String)) :
    textsOf (details.foldl addDetail s) = textsOf s ++ details.map Prod.snd := by
  induction details generalizing s with
  | nil => exact (List.append_nil _).symm
  | cons detail details ih =>
      rw [List.foldl_cons, ih, textsOf_addDetail, List.append_assoc, List.map_cons,
        List.singleton_append]

/-- With causes, a message is what is left on the stack of the head. -/
theorem message_of_ne_nil (head : String) {details : List (Nat × String)} (h : details ≠ []) :
    message head details =
      .chain (settled 1 (details.foldl addDetail ((0, .mk head []), []))).1.2 := by
  obtain ⟨detail, details, rfl⟩ := List.exists_cons_of_ne_nil h
  rfl

/-- A message has the text of its head and those of its causes, in the order in which they come. -/
theorem texts_message (head : String) (details : List (Nat × String)) :
    (message head details).texts = head :: details.map Prod.snd := by
  by_cases h : details = []
  · rw [h]
    rfl
  · have hone := ((Descending.of_head (.mk head [])).foldl details).settled_one
    have htexts := textsOf_settled 1 (details.foldl addDetail ((0, .mk head []), []))
    rw [textsOf_foldl, textsOf, hone] at htexts
    rw [message_of_ne_nil head h]
    simpa [textsOf, Message.texts, MessageChain.texts, MessageChain.textsAll] using htexts

/-! ## Chains from their depths -/

/-- Gives causes to the chain on top. -/
def attach (cs : List MessageChain) (s : Stack) : Stack :=
  ((s.1.1, .mk s.1.2.text (s.1.2.next ++ cs)), s.2)

theorem attach_nil (s : Stack) : attach [] s = s := by
  obtain ⟨⟨depth, text, next⟩, rest⟩ := s
  simp only [attach, MessageChain.text, MessageChain.next, List.append_nil]

theorem attach_attach (cs ds : List MessageChain) (s : Stack) :
    attach ds (attach cs s) = attach (cs ++ ds) s := by
  simp only [attach, MessageChain.text, MessageChain.next, List.append_assoc]

theorem settled_of_lt (h : s.1.1 < depth) : settled depth s = s := by
  obtain ⟨top, rest⟩ := s
  cases rest with
  | nil => rfl
  | cons parent rest => exact if_neg (Nat.not_le.mpr h)

/-- What is given away at one depth is so at every smaller one. -/
theorem settled_settled {deeper : Nat} (h : depth ≤ deeper) (s : Stack) :
    settled depth (settled deeper s) = settled depth s := by
  obtain ⟨top, rest⟩ := s
  unfold settled
  fun_induction settle deeper top rest with
  | case1 top => rfl
  | case2 top parent rest hdeep ih =>
      rw [ih]
      exact (if_pos (Nat.le_trans h hdeep)).symm
  | case3 top parent rest => rfl

/-- A chain that lies on a less deep one becomes a cause of it. -/
theorem settled_cons {t : Stack} (h : t.1.1 < depth) (c : MessageChain) :
    settled depth ((depth, c), t.1 :: t.2) = attach [c] t :=
  (if_pos (Nat.le_refl depth)).trans (settled_of_lt (s := attach [c] t) h)

theorem addDetail_of_pos (hdepth : 0 < depth) (s : Stack) (text : String) :
    addDetail s (depth, text) =
      ((depth, .mk text []), (settled depth s).1 :: (settled depth s).2) := by
  have hmax : max depth 1 = depth := by omega
  simp only [addDetail, hmax, settled]

mutual

/-- The entries of a chain make it a cause of what the stack holds for its depth. -/
theorem settled_entries {s : Stack} (hs : Descending s) {depth : Nat} (hdepth : 0 < depth) :
    (c : MessageChain) → settled depth ((c.entries depth).foldl addDetail s) =
      attach [c] (settled depth s)
  | .mk text next => by
      have hlaid := addDetail_of_pos hdepth s text
      have hready : settled (depth + 1) (addDetail s (depth, text)) = addDetail s (depth, text) :=
        settled_of_lt (hlaid ▸ Nat.lt_succ_self depth)
      have hnext := settled_entriesAll (hs.addDetail (depth, text)) (Nat.succ_pos depth) next
      rw [hready, hlaid] at hnext
      -- The causes lie on the chain, and the chain on what the stack holds for its depth.
      rw [MessageChain.entries, List.foldl_cons, hlaid, ← settled_settled (Nat.le_succ depth), hnext]
      exact settled_cons (hs.settled hdepth).1 (.mk text next)

theorem settled_entriesAll {s : Stack} (hs : Descending s) {depth : Nat} (hdepth : 0 < depth) :
    (cs : List MessageChain) → settled depth ((MessageChain.entriesAll depth cs).foldl addDetail s) =
      attach cs (settled depth s)
  | [] => (attach_nil _).symm
  | c :: cs => by
      rw [MessageChain.entriesAll, List.foldl_append, settled_entriesAll (hs.foldl _) hdepth cs,
        settled_entries hs hdepth c, attach_attach, List.singleton_append]

end

/-- A chain is made again of its entries. -/
theorem message_entries (text : String) (next : List MessageChain) :
    message text (MessageChain.entriesAll 1 next) =
      if next = [] then .text text else .chain (.mk text next) := by
  by_cases h : next = []
  · rw [if_pos h, h]
    rfl
  · have hentries : MessageChain.entriesAll 1 next ≠ [] := by
      obtain ⟨⟨text', next'⟩, cs, rfl⟩ := List.exists_cons_of_ne_nil h
      exact List.cons_ne_nil _ _
    rw [if_neg h, message_of_ne_nil text hentries,
      settled_entriesAll (.of_head (.mk text [])) Nat.one_pos next]
    rfl

/-! ## Messages as lines -/

/-- The line starts with a blank. -/
def IsIndented (line : List Char) : Prop := line.head?.any Text.isBlank = true

instance (line : List Char) : Decidable (IsIndented line) := inferInstanceAs (Decidable (_ = true))

/-- What an indented line says: its depth, which is half its indentation, and its text. -/
def detail (line : List Char) : Nat × String :=
  (Text.byteLength (line.takeWhile Text.isBlank) / 2, String.ofList (Text.trim line))

/-- A text of one line that does not start with a blank. -/
structure IsFlush (s : String) : Prop where
  ne_empty : s ≠ ""
  noLineEnd : '\n' ∉ s.toList
  start : ∀ c ∈ s.toList.head?, Text.isBlank c = false

/-- A text of one line that neither starts nor ends with a blank. -/
structure IsPhrase (s : String) : Prop extends IsFlush s where
  stop : ∀ c ∈ s.toList.getLast?, Text.isBlank c = false

theorem isFlush_iff {s : String} : IsFlush s ↔
    s ≠ "" ∧ '\n' ∉ s.toList ∧ s.toList.head?.all (!Text.isBlank ·) = true := by
  simp only [Option.all_eq_true, Bool.not_eq_true']
  exact ⟨fun h => ⟨h.ne_empty, h.noLineEnd, h.start⟩, fun ⟨hne, hline, hstart⟩ => ⟨hne, hline, hstart⟩⟩

instance (s : String) : Decidable (IsFlush s) := decidable_of_iff _ isFlush_iff.symm

theorem isPhrase_iff {s : String} :
    IsPhrase s ↔ IsFlush s ∧ s.toList.getLast?.all (!Text.isBlank ·) = true := by
  simp only [Option.all_eq_true, Bool.not_eq_true']
  exact ⟨fun h => ⟨h.toIsFlush, h.stop⟩, fun ⟨hflush, hstop⟩ => ⟨hflush, hstop⟩⟩

instance (s : String) : Decidable (IsPhrase s) := decidable_of_iff _ isPhrase_iff.symm

theorem IsFlush.toList_ne_nil {s : String} (h : IsFlush s) : s.toList ≠ [] :=
  fun hnil => h.ne_empty (String.toList_eq_nil_iff.mp hnil)

theorem toList_entryLine (e : Nat × String) :
    (MessageChain.entryLine e).toList = List.replicate (2 * e.1) ' ' ++ e.2.toList := by
  rw [MessageChain.entryLine, String.toList_append, String.toList_ofList]

namespace IsPhrase

variable {s : String} {e : Nat × String}

theorem trimEnd_eq (h : IsPhrase s) : Text.trimEnd s.toList = s.toList :=
  Text.trimEnd_of_getLast? h.stop

theorem isLine_entryLine (h : IsPhrase e.2) : Text.IsLine (MessageChain.entryLine e).toList := by
  rw [toList_entryLine]
  refine ⟨List.append_ne_nil_of_right_ne_nil _ h.toList_ne_nil, fun hmem => ?_, fun hlast => ?_⟩
  · rcases List.mem_append.mp hmem with hblank | htext
    · exact absurd (List.eq_of_mem_replicate hblank) (by decide)
    · exact h.noLineEnd htext
  · rw [List.getLast?_append_of_ne_nil _ h.toList_ne_nil] at hlast
    exact absurd (h.stop '\r' hlast) (by decide)

/-- Depth and text are read off the line of an entry. -/
theorem detail_entryLine (h : IsPhrase e.2) : detail (MessageChain.entryLine e).toList = e := by
  have hblank : ∀ c ∈ List.replicate (2 * e.1) ' ', Text.isBlank c = true := by
    intro c hc
    rw [List.eq_of_mem_replicate hc]
    rfl
  have hlength : ∀ n, Text.byteLength (List.replicate n ' ') = n := by
    intro n
    induction n with
    | zero => rfl
    | succ n ih => rw [List.replicate_succ, Text.byteLength_cons, ih, Nat.add_comm]; rfl
  rw [toList_entryLine, detail, Text.takeWhile_append_of_head? hblank h.start, hlength, Text.trim,
    Text.trimStart_append hblank, Text.trimStart_of_head? h.start, h.trimEnd_eq,
    String.ofList_toList, Nat.mul_div_cancel_left _ Nat.two_pos]

end IsPhrase

theorem isIndented_entryLine {e : Nat × String} (h : 0 < e.1) :
    IsIndented (MessageChain.entryLine e).toList := by
  obtain ⟨n, hn⟩ := Nat.exists_eq_add_one_of_ne_zero (Nat.ne_of_gt h)
  rw [toList_entryLine, hn]
  rfl

/-- The lines of a message are those of its entries. -/
theorem lines_flatten {c : MessageChain} (h : ∀ s ∈ c.texts, IsPhrase s) :
    Text.lines (Message.chain c).flatten.toList =
      (c.entries 0).map fun e => (MessageChain.entryLine e).toList := by
  rw [Message.flatten, String.toList_intercalate, List.map_map]
  refine (congrArg Text.lines (Text.glue_eq_intercalate _).symm).trans (Text.lines_glue ?_)
  intro line hline
  obtain ⟨e, he, rfl⟩ := List.mem_map.mp hline
  rw [← MessageChain.entries_texts 0 c] at h
  exact (h e.2 (List.mem_map_of_mem he)).isLine_entryLine

end Checker

open Checker in
/-- A chain whose texts are phrases comes back from the lines in which it is printed: the first is its
text, and the causes are nested anew by the indentation of the others. -/
theorem flattened_chains_are_rebuilt (c : MessageChain) (h : ∀ s ∈ c.texts, IsPhrase s) :
    ∃ first rest, Text.lines (Message.chain c).flatten.toList = first :: rest ∧
      String.ofList first = c.text ∧ (∀ line ∈ rest, IsIndented line) ∧
      message (String.ofList first) (rest.map detail) =
        if c.next = [] then .text c.text else .chain c := by
  have hlines := lines_flatten h
  obtain ⟨text, next⟩ := c
  have hphrase : ∀ e ∈ MessageChain.entriesAll 1 next, IsPhrase e.2 := by
    intro e he
    refine h e.2 (List.mem_cons_of_mem _ ?_)
    rw [← MessageChain.entriesAll_texts 1 next]
    exact List.mem_map_of_mem he
  have hdetails : ((MessageChain.entriesAll 1 next).map fun e =>
      (MessageChain.entryLine e).toList).map detail = MessageChain.entriesAll 1 next := by
    rw [List.map_map]
    exact (List.map_congr_left fun e he => (hphrase e he).detail_entryLine).trans (List.map_id _)
  have hfirst : String.ofList (MessageChain.entryLine (0, text)).toList = text := by
    rw [toList_entryLine, Nat.mul_zero, List.replicate_zero, List.nil_append, String.ofList_toList]
  refine ⟨_, _, hlines, hfirst, fun line hline => ?_, ?_⟩
  · obtain ⟨e, he, rfl⟩ := List.mem_map.mp hline
    exact isIndented_entryLine (MessageChain.le_of_mem_entriesAll next he)
  · rw [hfirst, hdetails]
    exact message_entries text next

/-- A chain with a cause of a cause, and another cause after it. -/
theorem flattened_chains_are_rebuilt_of_two :
    let c : MessageChain := .mk "Type 'A' is not assignable to type 'B'."
      [.mk "Types of property 'x' differ." [.mk "Type 'string' is not 'é'." []],
        .mk "Property 'y' is missing." []]
    (∀ s ∈ c.texts, Checker.IsPhrase s) ∧
      Checker.message "Type 'A' is not assignable to type 'B'."
        (["  Types of property 'x' differ.", "    Type 'string' is not 'é'.",
          "  Property 'y' is missing."].map fun line => Checker.detail line.toList) = .chain c := by
  intro c
  have hphrases : ∀ s ∈ c.texts, Checker.IsPhrase s := by decide +kernel
  obtain ⟨first, rest, hlines, hfirst, -, hmessage⟩ := flattened_chains_are_rebuilt c hphrases
  refine ⟨hphrases, ?_⟩
  rw [hfirst, if_neg (show c.next ≠ [] from List.cons_ne_nil _ _)] at hmessage
  have hrest : rest = ["  Types of property 'x' differ.", "    Type 'string' is not 'é'.",
      "  Property 'y' is missing."].map String.toList := by
    have hcomputed : Text.lines (Message.chain c).flatten.toList =
        (["Type 'A' is not assignable to type 'B'.", "  Types of property 'x' differ.",
          "    Type 'string' is not 'é'.", "  Property 'y' is missing."].map String.toList) := by
      decide +kernel
    rw [hcomputed] at hlines
    exact (List.cons.inj hlines).2.symm
  rw [hrest, List.map_map] at hmessage
  exact hmessage

end ScriptWorks
