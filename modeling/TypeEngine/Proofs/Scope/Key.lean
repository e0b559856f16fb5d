import TypeEngine.Proofs.Numeral
import TypeEngine.Proofs.Text.Blank
import TypeEngine.Proofs.Ty.Equality

/-!
# Keys of paths

A path is filed under a text that joins its blocks by the sign U+001F. Where no block has that sign
in its name, the text tells different paths apart (`key_eq_iff`).
-/

namespace TypeEngine

/-- The sign that keys put between blocks. -/
def Path.mark : Char := '\x1f'

/-- What a block adds to the key of a path. -/
def Block.keyText (b : Block) : String := toString b.kind.code ++ ":" ++ b.name

theorem Block.keyText_inj {a b : Block} (same : a.keyText = b.keyText) : a.bare = b.bare := by
  have shown : ∀ c : Block, c.keyText.toList = (toString c.kind.code).toList ++ ':' :: c.name.toList := by
    intro c
    simp [keyText]
  have noColon : ∀ n : Int, ':' ∉ (toString n).toList := by
    intro n member
    rcases Numeral.isDigit_of_mem_toString member with digit | sign
    · cases digit
    · cases sign
  have chars := congrArg String.toList same
  rw [shown, shown] at chars
  obtain ⟨codes, names⟩ := Text.append_cons_inj (noColon _) (noColon _) chars
  have kinds : a.kind = b.kind :=
    congrArg Kind.mk (Numeral.toString_int_injective (String.toList_inj.mp codes))
  rw [bare, bare, kinds, String.toList_inj.mp names]

namespace Path

/-- No block has the joining sign in its name. -/
def Plain (p : Path) : Prop := ∀ b ∈ p.blocks, mark ∉ b.name.toList

instance (p : Path) : Decidable p.Plain := inferInstanceAs (Decidable (∀ b ∈ p.blocks, _))

theorem mark_notMem_keyText {b : Block} (plain : mark ∉ b.name.toList) : mark ∉ b.keyText.toList := by
  have shown : b.keyText.toList = (toString b.kind.code).toList ++ ':' :: b.name.toList := by
    simp [Block.keyText]
  rw [shown, List.mem_append, List.mem_cons]
  rintro (member | colon | member)
  · rcases Numeral.isDigit_of_mem_toString member with digit | sign
    · cases digit
    · cases sign
  · cases colon
  · exact plain member

theorem splitOn_key {b : Block} {blocks : List Block} (plain : Plain ⟨b :: blocks⟩) :
    Text.splitOn mark (key ⟨b :: blocks⟩).toList = ((b :: blocks).map Block.keyText).map String.toList := by
  refine Text.splitOn_join rfl fun text member => ?_
  obtain ⟨c, inside, rfl⟩ := List.mem_map.mp (show text ∈ (b :: blocks).map Block.keyText from member)
  exact mark_notMem_keyText (plain c inside)

theorem map_keyText_inj {as bs : List Block} (same : as.map Block.keyText = bs.map Block.keyText) :
    as.map Block.bare = bs.map Block.bare := by
  induction as generalizing bs with
  | nil =>
    cases bs with
    | nil => rfl
    | cons b bs => cases same
  | cons a as ih =>
    cases bs with
    | nil => cases same
    | cons b bs =>
      obtain ⟨first, rest⟩ := List.cons.inj same
      rw [List.map_cons, List.map_cons, Block.keyText_inj first, ih rest]

theorem key_ne_empty (b : Block) (blocks : List Block) : key ⟨b :: blocks⟩ ≠ "" := by
  intro empty
  have chars := congrArg String.toList empty
  have colon : ':' ∈ (key ⟨b :: blocks⟩).toList := by
    cases blocks with
    | nil => simp [key]
    | cons next blocks => simp [key]
  rw [chars] at colon
  exact List.not_mem_nil colon

theorem beq_of_key_eq {p q : Path} (hp : p.Plain) (hq : q.Plain) (same : p.key = q.key) : (p == q) = true := by
  rw [beq_iff_bare]
  obtain ⟨as⟩ := p
  obtain ⟨bs⟩ := q
  cases as with
  | nil =>
    cases bs with
    | nil => rfl
    | cons b bs => exact absurd same.symm (key_ne_empty b bs)
  | cons a as =>
    cases bs with
    | nil => exact absurd same (key_ne_empty a as)
    | cons b bs =>
      have pieces := splitOn_key hp
      rw [same, splitOn_key hq] at pieces
      have texts := (List.map_inj_right fun _ _ => String.toList_inj.mp).mp pieces
      rw [bare, bare, map_keyText_inj texts.symm]

/-- The keys of plain paths are the same exactly if the paths are equal. -/
theorem key_eq_iff {p q : Path} (hp : p.Plain) (hq : q.Plain) : p.key = q.key ↔ (p == q) = true :=
  ⟨beq_of_key_eq hp hq, fun equal => key_congr (beq_iff_bare.mp equal)⟩

/-- Signs and digits in a name do not pass for those of a kind, and indexes do not matter. -/
theorem key_eq_iff_signs :
    key ⟨[⟨⟨-1⟩, "2:a", 0⟩, ⟨⟨0⟩, "", 3⟩]⟩ = key ⟨[⟨⟨-1⟩, "2:a", 1⟩, ⟨⟨0⟩, "", 4⟩]⟩ ∧
      key ⟨[⟨⟨-1⟩, "2:a", 0⟩, ⟨⟨0⟩, "", 3⟩]⟩ ≠ key ⟨[⟨⟨-12⟩, "a", 0⟩, ⟨⟨0⟩, "", 3⟩]⟩ :=
  ⟨(key_eq_iff (by decide) (by decide)).mpr (by decide),
    mt (key_eq_iff (by decide) (by decide)).mp (by decide)⟩

theorem key_eq_single_iff {p : Path} {b : Block} (plain : mark ∉ b.name.toList) :
    p.key = key ⟨[b]⟩ ↔ (p == ⟨[b]⟩) = true := by
  constructor
  · intro same
    obtain ⟨blocks⟩ := p
    match blocks with
    | [] => exact absurd same.symm (key_ne_empty b [])
    | [a] =>
      have texts : a.keyText = b.keyText := by simpa [key, Block.keyText] using same
      rw [beq_iff_bare]
      exact congrArg (fun b => Path.mk [b]) (Block.keyText_inj texts)
    | a :: c :: rest =>
      have joined : mark ∈ (key ⟨a :: c :: rest⟩).toList := by simp [key, mark]
      have text : key ⟨[b]⟩ = b.keyText := by simp [key, Block.keyText]
      rw [same, text] at joined
      exact absurd joined (mark_notMem_keyText plain)
  · exact fun same => key_congr (beq_iff_bare.mp same)

end Path

end TypeEngine
