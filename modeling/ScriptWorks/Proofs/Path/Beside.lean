import ScriptWorks.Proofs.Path.Ancestors

/-!
# Paths beside each other

Two paths in one directory, as that is written, differ in their last pieces only.
-/

namespace ScriptWorks.Path

variable {p q r : Path} {x y z : List Char} {abs : Bool} {init : List (List Char)}

theorem IsLoud.isAbsolute_eq_false (hx : IsLoud x) : (ofChars x).isAbsolute = false := by
  obtain ⟨c, cs, rfl⟩ := List.exists_cons_of_ne_nil hx.ne_nil
  have hc : ¬ c = '/' := fun hc => hx.noSlash (by simp [hc])
  simp [isAbsolute, hc]

theorem dropSilentEnd_concat (abs : Bool) (hx : IsLoud x) :
    dropSilentEnd abs (init ++ [x]) = init ++ [x] := by
  obtain ⟨silent, hall, hsilent, -⟩ := exists_dropSilentEnd abs (init ++ [x])
  rcases List.eq_nil_or_concat silent with rfl | ⟨others, z, rfl⟩
  · rw [List.append_nil] at hall
    exact hall.symm
  · rw [List.concat_eq_append, ← List.append_assoc] at hall
    obtain ⟨-, hz⟩ := List.append_inj' hall rfl
    have hx' := hsilent x (by simp [List.cons.inj hz])
    rw [hx.notSilent] at hx'
    cases hx'

/-- The paths are written alike up to their last pieces. -/
structure Beside (p q : Path) (x y : List Char) : Prop where
  left : IsLoud x
  right : IsLoud y
  eq : (p.chars = x ∧ q.chars = y) ∨ ∃ pre, p.chars = pre ++ '/' :: x ∧ q.chars = pre ++ '/' :: y

namespace Beside

theorem endsIn (h : Beside p q x y) : EndsIn q y :=
  ⟨h.right.noSlash, h.eq.imp And.right fun ⟨pre, heq⟩ => ⟨pre, heq.2⟩⟩

theorem trans (h : Beside p q x y) (h' : Beside q r y z) : Beside p r x z := by
  refine ⟨h.left, h'.right, ?_⟩
  rcases h.eq with ⟨hp, hq⟩ | ⟨pre, hp, hq⟩ <;> rcases h'.eq with ⟨hq', hr⟩ | ⟨pre', hq', hr⟩
  · exact .inl ⟨hp, hr⟩
  · exact absurd (hq.symm.trans hq') fun heq => h.right.noSlash (by rw [heq]; simp)
  · exact absurd (hq.symm.trans hq') fun heq => h.right.noSlash (by rw [← heq]; simp)
  · obtain rfl := List.append_cancel_right (hq.symm.trans hq')
    exact .inr ⟨pre, hp, hr⟩

theorem isAbsolute_eq (h : Beside p q x y) : q.isAbsolute = p.isAbsolute := by
  rw [← ofChars_chars p, ← ofChars_chars q]
  rcases h.eq with ⟨hp, hq⟩ | ⟨pre, hp, hq⟩
  · rw [hp, hq, h.left.isAbsolute_eq_false, h.right.isAbsolute_eq_false]
  · rw [hp, hq, List.append_cons, List.append_cons pre '/' x]
    exact isAbsolute_append (by simp) y x

theorem exists_pieces (h : Beside p q x y) :
    ∃ init, p.pieces = init ++ [x] ∧ q.pieces = init ++ [y] := by
  unfold pieces
  rw [h.isAbsolute_eq]
  rcases h.eq with ⟨hp, hq⟩ | ⟨pre, hp, hq⟩
  · have habs : p.isAbsolute = false := by
      rw [← ofChars_chars p, hp]
      exact h.left.isAbsolute_eq_false
    rw [habs, hp, hq, Text.cut_of_notMem h.left.noSlash, Text.cut_of_notMem h.right.noSlash]
    exact ⟨[], rfl, rfl⟩
  · obtain ⟨first, rest, hcut⟩ := List.exists_cons_of_ne_nil (Text.cut_ne_nil '/' pre)
    rw [hp, hq, Text.cut_append, Text.cut_append, Text.cut_of_notMem h.left.noSlash,
      Text.cut_of_notMem h.right.noSlash, hcut]
    split
    · exact ⟨rest, rfl, rfl⟩
    · exact ⟨first :: rest, rfl, rfl⟩

/-- A path beside a tidy one is tidy. -/
theorem tidy (h : Beside p q x y) (hp : Tidy p abs (init ++ [x])) : Tidy q abs (init ++ [y]) := by
  obtain ⟨init', hinit, hq⟩ := h.exists_pieces
  rw [hp.pieces (by simp)] at hinit
  obtain rfl := List.append_cancel_right hinit
  refine ⟨?_, fun z hz => ?_⟩
  · rw [← hq, ← hp.isAbsolute, ← h.isAbsolute_eq]
    exact (ofPieces_pieces q).symm
  · rcases List.mem_append.mp hz with hz | hz
    · exact hp.loud z (List.mem_append_left _ hz)
    · rw [List.mem_singleton.mp hz]
      exact h.right

end Beside

namespace EndsIn

theorem beside (hp : EndsIn p x) (hx : IsLoud x) : Beside p p x x :=
  ⟨hx, hx, hp.eq.imp (fun h => ⟨h, h⟩) fun ⟨pre, h⟩ => ⟨pre, h, h⟩⟩

/-- A path is beside the one that is made of its pieces with another one at the end. -/
theorem beside_ofPieces (hp : EndsIn p x) (hx : IsLoud x) (hy : IsLoud y) :
    Beside p (Path.ofPieces p.isAbsolute ((dropSilentEnd p.isAbsolute p.pieces).dropLast ++ [y]))
      x y := by
  refine ⟨hx, hy, ?_⟩
  obtain ⟨init, hinit, -⟩ := (hp.beside hx).exists_pieces
  have hall : p.chars = (if p.isAbsolute then ['/'] else []) ++ Text.glue '/' (init ++ [x]) := by
    rw [← hinit, ← chars_ofChars ((if p.isAbsolute then ['/'] else []) ++ _)]
    exact congrArg chars (ofPieces_pieces p).symm
  rw [hinit, dropSilentEnd_concat _ hx, List.dropLast_concat, hall, Path.ofPieces, chars_ofChars]
  cases init with
  | nil =>
      cases p.isAbsolute with
      | true => exact .inr ⟨[], rfl, rfl⟩
      | false => exact .inl ⟨rfl, rfl⟩
  | cons z init =>
      rw [Text.glue_concat (List.cons_ne_nil z init), Text.glue_concat (List.cons_ne_nil z init)]
      exact .inr ⟨_, (List.append_assoc ..).symm, (List.append_assoc ..).symm⟩

/-- Without the last characters of its last piece a path is beside what it was. -/
theorem beside_take (hp : EndsIn p (y ++ z)) (hx : IsLoud (y ++ z)) (hy : IsLoud y) :
    Beside p (ofChars (p.chars.take (p.chars.length - z.length))) (y ++ z) y := by
  refine ⟨hx, hy, ?_⟩
  have hcut : ∀ cs : List Char, (cs ++ z).take ((cs ++ z).length - z.length) = cs := fun cs => by
    rw [List.length_append, Nat.add_sub_cancel, List.take_left]
  rw [chars_ofChars]
  rcases hp.eq with heq | ⟨pre, heq⟩
  · rw [heq]
    exact .inl ⟨rfl, hcut y⟩
  · rw [heq, ← List.cons_append, ← List.append_assoc]
    exact .inr ⟨pre, by simp, hcut _⟩

end EndsIn

end ScriptWorks.Path
