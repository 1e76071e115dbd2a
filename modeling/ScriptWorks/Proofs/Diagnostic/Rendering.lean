import ScriptWorks.Proofs.Json.Printing
import ScriptWorks.Request.Check

/-!
# Rendered problems

The records of problems are read back from their text. The text has a line for each member of a record,
in the order of the fields; the reader puts them in the order of their keys.
-/

namespace ScriptWorks

namespace Json

/-! ## Decoding -/

theorem Decode.list_map {α : Type} {d : Decoder α} {f : α → Json} {as : List α}
    (h : ∀ a ∈ as, d (f a) = .ok a) : Decode.list d (.arr (as.map f)) = .ok as := by
  unfold Decode.list
  dsimp only
  induction as with
  | nil => rfl
  | cons a as ih =>
      obtain ⟨ha, has⟩ := List.forall_mem_cons.mp h
      rw [List.map_cons, List.mapM_cons, ha, ih has]
      rfl

theorem Decode.word32_ofNat {n : Nat} (h : n < Nat.pow 2 32) : Decode.word32 (.ofNat n) = .ok n :=
  if_pos ⟨Int.natCast_nonneg n, h⟩

theorem readsAs_ofNat {depth n : Nat} (h : n < Nat.pow 2 32) : ReadsAs depth (.ofNat n) (.ofNat n) := by
  refine .num (parse_compact_ofNat (Nat.le_trans (Nat.le_of_lt h) ?_))
  decide

/-! ## Layout -/

/-- A member of an object in a list, on a line of its own. -/
def memberText (m : String × String) : String := "\n    \"" ++ m.1 ++ "\": " ++ m.2

/-- An object in a list. -/
def objectText (members : List (String × String)) : String :=
  "\x7b" ++ ",".intercalate (members.map memberText) ++ "\n  \x7d"

/-- A list of objects, each on lines of its own. -/
def listText : List String → String
  | [] => "[]"
  | objects => "[" ++ ",".intercalate (objects.map ("\n  " ++ ·)) ++ "\n]"

theorem toList_intercalate_comma (s : String) (ss : List String) :
    (",".intercalate (s :: ss)).toList = s.toList ++ (ss.map String.toList).flatMap (',' :: ·) := by
  rw [String.toList_intercalate]
  induction ss generalizing s with
  | nil => simp
  | cons t ss ih =>
      rw [List.map_cons, List.map_cons, List.intercalate_cons_cons, ← List.map_cons, ih,
        List.map_cons, List.flatMap_cons, List.append_assoc]
      rfl

theorem writePrettyItems_eq_flatMap (level : Nat) (vs : List Json) :
    writePrettyItems level vs = vs.flatMap fun v => ',' :: (newline level ++ writePretty level v) := by
  induction vs with
  | nil => rfl
  | cons v vs ih => simp [writePrettyItems, ih]

theorem writePrettyMembers_eq_flatMap (level : Nat) (ms : List (String × Json)) :
    writePrettyMembers level ms = ms.flatMap fun m =>
      ',' :: (newline level ++ (writeString m.1 ++ ':' :: ' ' :: writePretty level m.2)) := by
  induction ms with
  | nil => rfl
  | cons m ms ih => simp [writePrettyMembers, ih]

/-- The text of a member. -/
def textOfMember (m : String × Json) : String × String := (m.1, String.ofList (writePretty 2 m.2))

theorem toList_memberText {m : String × Json} (h : m.1.toList.flatMap writeChar = m.1.toList) :
    (memberText (textOfMember m)).toList =
      newline 2 ++ (writeString m.1 ++ ':' :: ' ' :: writePretty 2 m.2) := by
  simp [memberText, textOfMember, writeString, h, newline]

theorem toList_objectText {m : String × Json} {ms : List (String × Json)}
    (h : ∀ n ∈ m :: ms, n.1.toList.flatMap writeChar = n.1.toList) :
    (objectText ((m :: ms).map textOfMember)).toList = writePretty 1 (.obj (m :: ms)) := by
  obtain ⟨hm, hms⟩ := List.forall_mem_cons.mp h
  have hrest : (((ms.map textOfMember).map memberText).map String.toList).flatMap (',' :: ·) =
      writePrettyMembers 2 ms := by
    rw [writePrettyMembers_eq_flatMap, List.map_map, List.map_map, List.flatMap_map]
    exact List.flatMap_congr fun n hn => congrArg (',' :: ·) (toList_memberText (hms n hn))
  rw [objectText, String.toList_append, String.toList_append, List.map_cons, List.map_cons,
    toList_intercalate_comma, hrest, toList_memberText hm]
  simp [writePretty, newline]

theorem toList_listText {vs : List Json} {objects : List String}
    (h : objects.map String.toList = vs.map (writePretty 1)) :
    (listText objects).toList = writePretty 0 (.arr vs) := by
  cases vs with
  | nil =>
      rw [List.map_eq_nil_iff.mp h]
      rfl
  | cons v vs =>
      obtain ⟨o, os, rfl, ho, hos⟩ := List.map_eq_cons_iff.mp h
      have hrest : ((os.map ("\n  " ++ ·)).map String.toList).flatMap (',' :: ·) =
          writePrettyItems 1 vs := by
        have hlines : (os.map ("\n  " ++ ·)).map String.toList =
            (os.map String.toList).map (newline 1 ++ ·) := by
          simp [newline, Function.comp_def]
        rw [writePrettyItems_eq_flatMap, hlines, hos, List.map_map, List.flatMap_map]
        rfl
      have htext : listText (o :: os) = "[" ++ ",".intercalate ((o :: os).map ("\n  " ++ ·)) ++ "\n]" :=
        rfl
      rw [htext, String.toList_append, String.toList_append, List.map_cons, toList_intercalate_comma,
        hrest, String.toList_append, ho]
      simp [writePretty, newline]

end Json

namespace Problem

variable {p : Problem}

/-! ## Records -/

/-- The members of the record of a problem, in the order of its fields. -/
def members (p : Problem) : List (String × Json) :=
  [("file", .str p.file), ("line", .ofNat p.line), ("column", .ofNat p.column),
    ("message", .str p.message), ("code", .str p.code), ("severity", .str p.severity.name)]

/-- Line and column are numbers of 32 bits. -/
def HasWords (p : Problem) : Prop := p.line < Nat.pow 2 32 ∧ p.column < Nat.pow 2 32

instance (p : Problem) : Decidable p.HasWords := inferInstanceAs (Decidable (_ ∧ _))

theorem readsAs_members (h : p.HasWords) {depth : Nat} :
    ∀ m ∈ p.members, Json.ReadsAs depth m.2 m.2 := by
  simp only [members, List.forall_mem_cons]
  exact ⟨.str _, Json.readsAs_ofNat h.1, Json.readsAs_ofNat h.2, .str _, .str _, .str _,
    List.forall_mem_nil _⟩

theorem readsAs_toJson (h : p.HasWords) {depth : Nat} :
    Json.ReadsAs (depth + 1) p.toJson (.ofMembers p.members) := by
  refine .obj (List.forall₂_same.mpr fun m hm => ⟨rfl, readsAs_members h m hm⟩) ?_
  rintro _ ⟨⟩
  exact show "file" ≠ Json.embeddedKey by decide

/-- The members are read in the order of their keys. -/
theorem ofMembers_members : Json.ofMembers p.members =
    .obj [("code", .str p.code), ("column", .ofNat p.column), ("file", .str p.file),
      ("line", .ofNat p.line), ("message", .str p.message), ("severity", .str p.severity.name)] := by
  have hbefore : "column" < "file" ∧ "code" < "column" := by decide +kernel
  have hafter : ¬ "line" < "file" ∧ ¬ "message" < "column" ∧ ¬ "message" < "file" ∧
      ¬ "message" < "line" ∧ ¬ "severity" < "code" ∧ ¬ "severity" < "column" ∧
      ¬ "severity" < "file" ∧ ¬ "severity" < "line" ∧ ¬ "severity" < "message" := by decide +kernel
  simp only [Json.ofMembers, Dict.ofList, Dict.overlay, members, List.foldl_cons, List.foldl_nil,
    Dict.insert, hbefore, hafter, String.reduceEq, if_true, if_false]

theorem find?_severities (s : Severity) : severities.find? (·.name = s.name) = some s := by
  cases s <;> rfl

theorem ofJson_ofMembers (h : p.HasWords) : ofJson (.ofMembers p.members) = .ok p := by
  rw [ofMembers_members]
  simp [ofJson, Json.Decode.record, fields, Json.Decode.storeMember, Json.Decode.string,
    Json.Decode.word32_ofNat h.1, Json.Decode.word32_ofNat h.2, Json.Decode.oneOf, find?_severities,
    Except.map, bind, Except.bind, pure, Except.pure]

/-- No character of a key has another form in a string. -/
theorem toList_objectText_members :
    (Json.objectText (p.members.map Json.textOfMember)).toList = Json.writePretty 1 p.toJson := by
  refine Json.toList_objectText fun m hm => ?_
  have hkeys : ∀ k ∈ ["file", "line", "column", "message", "code", "severity"],
      k.toList.flatMap Json.writeChar = k.toList := by decide +kernel
  exact hkeys m.1 (List.mem_map_of_mem hm)

end Problem

open Json in
/-- The records of problems are read back from their text, whatever their texts hold. The text is that of
a list of objects, one for each problem, with the members in the order of the fields. -/
theorem rendered_problems_are_read_back (ps : List Problem) (h : ∀ p ∈ ps, p.HasWords) :
    (∃ v, parse (render ps .json) = .ok v ∧ Problem.listOfJson v = .ok ps) ∧
      ∃ members : Problem → List (String × String),
        render ps .json = listText (ps.map fun p => objectText (members p)) ∧
        ∀ p ∈ ps, (members p).map (·.1) = ["file", "line", "column", "message", "code", "severity"] ∧
          (members p).map (fun m => parse m.2) = [.ok (.str p.file), .ok (.ofNat p.line),
            .ok (.ofNat p.column), .ok (.str p.message), .ok (.str p.code),
            .ok (.str p.severity.name)] := by
  refine ⟨⟨.arr (ps.map fun p => .ofMembers p.members), ?_, ?_⟩, fun p => p.members.map textOfMember,
    ?_, ?_⟩
  · refine ReadsAs.parse_writePretty (.arr ?_) 0
    rw [List.forall₂_map_left_iff, List.forall₂_map_right_iff, List.forall₂_same]
    exact fun p hp => Problem.readsAs_toJson (h p hp)
  · exact Decode.list_map fun p hp => Problem.ofJson_ofMembers (h p hp)
  · refine String.toList_inj.mp (String.toList_ofList.trans (toList_listText ?_).symm)
    rw [List.map_map, List.map_map]
    exact List.map_congr_left fun p _ => Problem.toList_objectText_members
  · refine fun p hp => ⟨rfl, ?_⟩
    rw [List.map_map]
    exact List.map_congr_left fun m hm => (Problem.readsAs_members (h p hp) m hm).parse_writePretty 2

/-- Quotes, line ends and control characters, and the largest column. -/
theorem rendered_problems_are_read_back_of_two :
    let ps : List Problem :=
      [⟨"C:\\\"a\".ts", 0, 4294967295, "tab\t line\r\n zero\x00 é 𝄞", "TS2322", .warning⟩,
        ⟨"", 3, 1, "\"\\", "", .info⟩]
    (∀ p ∈ ps, p.HasWords) ∧
      ∃ v, Json.parse (render ps .json) = .ok v ∧ Problem.listOfJson v = .ok ps := by
  intro ps
  have hwords : ∀ p ∈ ps, p.HasWords := by decide
  exact ⟨hwords, (rendered_problems_are_read_back ps hwords).1⟩

example : render [⟨"a.ts", 1, 7, "Say \"b\".\n", "TS1", .error⟩] .json =
    "[\n  \x7b\n    \"file\": \"a.ts\",\n    \"line\": 1,\n    \"column\": 7,\n" ++
      "    \"message\": \"Say \\\"b\\\".\\n\",\n    \"code\": \"TS1\",\n" ++
      "    \"severity\": \"error\"\n  \x7d\n]" := by decide +kernel

end ScriptWorks
