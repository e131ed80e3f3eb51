import Progression.CommandLine.Run
import Progression.Proofs.Failing
import Progression.Proofs.Text.Hexadecimal
import Progression.Proofs.Text.Pieces
import Progression.Requirement.Printer

/-!
# Printed pickups as arguments

A pickup is printed as a token or as an atom of a requirement. The one fills its number up with zeros and the other
marks it as one of base sixteen, and the command reads both as the pickup (`readItem_of_shows`). So a list of printed
pickups, with commas between them and blanks around them, is a list of tokens to start with
(`startingTokens_of_printed`).
-/

namespace Progression

namespace CommandLine

open Hexadecimal (digits isDigit)
open Text (Padded isBlank)

/-! ## Printed lists -/

section Defs

/-- The text shows the pickup, as a token or as an atom. -/
inductive Shows : ItemId → List Char → Prop
  | token (id : ItemId) : Shows id (Token.item id).display.toList
  | atom (id : ItemId) : Shows id (Atom.item id).display.toList

/-- The piece shows the pickup between blanks. -/
def ShowsPadded (id : ItemId) (p : List Char) : Prop := ∃ t, Shows id t ∧ Padded t p

/-- The text shows the pickups one after another, with commas between them and blanks around each. -/
def ListsItems (ids : List ItemId) (s : String) : Prop :=
  ∃ ps, List.Forall₂ ShowsPadded ids ps ∧ s.toList = [','].intercalate ps

end Defs

variable {id : ItemId} {ids : List ItemId} {t p : List Char} {s : String}

/-! ## One pickup -/

section One

/-- Digits begin with no mark. -/
theorem dropHexMarks_of_isDigit (h : ∀ c ∈ t, isDigit c) : dropHexMarks t = t := by
  unfold dropHexMarks
  split
  · next rest =>
    have hx : isDigit 'x' := h 'x' (by simp)
    exact absurd hx (by decide)
  · rfl

/-- What shows a pickup is its number in digits, with or without the mark before it. -/
theorem Shows.exists_digits (h : Shows id t) :
    ∃ width, 0 < width ∧ (t = digits width id.toNat ∨ t = '0' :: 'x' :: digits width id.toNat) := by
  cases h with
  | token => exact ⟨3, by decide, Or.inl (by simp [Token.display])⟩
  | atom => exact ⟨1, by decide, Or.inr (by simp [Atom.display])⟩

theorem Shows.isDigit_or_mark (h : Shows id t) : ∀ c ∈ t, isDigit c ∨ c = 'x' := by
  intro c hc
  obtain ⟨width, -, rfl | rfl⟩ := h.exists_digits
  · exact Or.inl (Hexadecimal.isDigit_of_mem_digits width id.toNat c hc)
  · rcases List.mem_cons.1 hc with rfl | hc
    · exact Or.inl (by decide)
    · rcases List.mem_cons.1 hc with rfl | hc
      · exact Or.inr rfl
      · exact Or.inl (Hexadecimal.isDigit_of_mem_digits width id.toNat c hc)

theorem Shows.not_isBlank (h : Shows id t) : ∀ c ∈ t, isBlank c = false := by
  intro c hc
  rcases h.isDigit_or_mark c hc with hdigit | rfl
  · exact Hexadecimal.of_isDigit (P := fun c => isBlank c = false) (by decide) hdigit
  · decide

theorem Shows.ne_nil (h : Shows id t) : t ≠ [] := by
  obtain ⟨width, hwidth, rfl | rfl⟩ := h.exists_digits
  · exact Hexadecimal.digits_ne_nil hwidth id.toNat
  · simp

/-- A printed pickup is read as the pickup. -/
theorem readItem_of_shows (h : Shows id t) : readItem (String.ofList t) = .ok (.item id) := by
  obtain ⟨width, hwidth, ht⟩ := h.exists_digits
  have hdigits : dropHexMarks t = digits width id.toNat := by
    have hplain : dropHexMarks (digits width id.toNat) = digits width id.toNat :=
      dropHexMarks_of_isDigit (Hexadecimal.isDigit_of_mem_digits width id.toNat)
    rcases ht with rfl | rfl
    · exact hplain
    · rw [dropHexMarks, hplain]
  have hne : digits width id.toNat ≠ [] := Hexadecimal.digits_ne_nil hwidth id.toNat
  have hread : Hexadecimal.read UInt32.size (digits width id.toNat) = .ok id.toNat :=
    Hexadecimal.read_of_value? (Hexadecimal.value?_digits width id.toNat) hne id.toNat_lt
  simp only [readItem, String.toList_ofList, hdigits, hread]
  show Except.ok (Token.item (UInt32.ofNat id.toNat)) = .ok (.item id)
  rw [UInt32.ofNat_toNat]

/-- Blanks around a printed pickup fall away. -/
theorem ofText_of_padded (h : Shows id t) (hp : Padded t p) : Name.ofText (String.ofList p) = String.ofList t := by
  have hname : Text.normalize p = t := by
    rw [Text.normalize_padded hp, Text.normalize_eq_self h.not_isBlank]
  rw [Name.ofText, String.toList_ofList, hname]

/-- There is no comma in a printed pickup or in the blanks around it. -/
theorem comma_notMem (h : ShowsPadded id p) : ',' ∉ p := by
  obtain ⟨t, ht, a, b, ha, hb, rfl⟩ := h
  have hblank : isBlank ',' = false := by decide
  intro hmem
  rcases List.mem_append.1 hmem with hmem | hmem
  · rcases List.mem_append.1 hmem with hmem | hmem
    · exact absurd (ha ',' hmem) (by simp [hblank])
    · rcases ht.isDigit_or_mark ',' hmem with hdigit | hmark
      · exact absurd hdigit (by decide)
      · exact absurd hmark (by decide)
  · exact absurd (hb ',' hmem) (by simp [hblank])

end One

/-! ## All of them -/

section All

/-- A list is split into the names that its pieces are. -/
theorem splitList_of_joined {ps : List (List Char)} (hcomma : ∀ p ∈ ps, ',' ∉ p)
    (hs : s.toList = [','].intercalate ps) :
    splitList s = (ps.map fun p => Name.ofText (String.ofList p)).filter (· ≠ "") := by
  by_cases hnil : ps = []
  · subst hnil
    rw [splitList, hs]
    decide
  · rw [splitList, hs, List.splitOn_intercalate ',' hcomma hnil]

/-- The pieces of a printed list are read one by one, and none of them is left out. -/
theorem forall₂_splitList (h : ListsItems ids s) :
    List.Forall₂ (fun id n => readItem n = .ok (.item id)) ids (splitList s) := by
  obtain ⟨ps, hps, hs⟩ := h
  have hcomma : ∀ p ∈ ps, ',' ∉ p := by
    intro p hp
    obtain ⟨id, -, hshows⟩ := exists_of_mem_right hps hp
    exact comma_notMem hshows
  rw [splitList_of_joined hcomma hs]
  clear hs hcomma
  induction hps with
  | nil => exact .nil
  | cons hp _ ih =>
    obtain ⟨t, ht, hpadded⟩ := hp
    have hne : String.ofList t ≠ "" := by
      intro h
      exact ht.ne_nil (by simpa using congrArg String.toList h)
    rw [List.map_cons, ofText_of_padded ht hpadded, List.filter_cons_of_pos (by simpa using hne)]
    exact .cons (readItem_of_shows ht) ih

theorem mapM_readItem (h : ListsItems ids s) : (splitList s).mapM readItem = .ok (ids.map .item) := by
  rw [mapM_eq_ok, List.forall₂_map_right_iff]
  exact (forall₂_splitList h).flip

end All

end CommandLine

open CommandLine
open Text (isBlank)

/-- The pickups that a list shows are held at the start, in the order of the list, before any flags that are given;
without flags there is nothing else. -/
theorem startingTokens_of_printed {args : Arguments} {ids : List ItemId} (h : ListsItems ids args.items) :
    startingTokens args = .ok (ids.map .item ++ (splitList args.flags).map .flag) ∧
      (args.flags = "" → startingTokens args = .ok (ids.map .item)) := by
  have hall : startingTokens args = .ok (ids.map .item ++ (splitList args.flags).map .flag) := by
    rw [startingTokens, mapM_readItem h]
    rfl
  refine ⟨hall, ?_⟩
  intro hflags
  have hnone : splitList args.flags = [] := by
    rw [hflags]
    decide
  rw [hall, hnone, List.map_nil, List.append_nil]

namespace CommandLine

/-- The first pickup as a token and as an atom, and the least and the greatest number between them. -/
def mixedItems : Arguments where
  requirements := "rules.json"
  settings := none
  game := none
  villagers := ""
  portraits := ""
  glitches := false
  openWorld := false
  items := "01F,\u2003 0x0,FFFFFFFF\t, 0x1F "
  flags := ""
  removePortraits := ""
  rank := false
  output := none

theorem listsItems_mixed : ListsItems [0x1F, 0, 0xFFFFFFFF, 0x1F] mixedItems.items := by
  have hwide : ∀ c ∈ ['\u2003', ' '], isBlank c = true := by simp [isBlank]
  have htab : ∀ c ∈ ['\t'], isBlank c = true := by simp [isBlank]
  have hspace : ∀ c ∈ [' '], isBlank c = true := by simp [isBlank]
  refine ⟨["01F".toList, "\u2003 0x0".toList, "FFFFFFFF\t".toList, " 0x1F ".toList], ?_, by decide⟩
  refine .cons ⟨_, .token 0x1F, [], [], nofun, nofun, by decide⟩ (.cons ?_ (.cons ?_ (.cons ?_ .nil)))
  · exact ⟨_, .atom 0, ['\u2003', ' '], [], hwide, nofun, by decide⟩
  · exact ⟨_, .token 0xFFFFFFFF, [], ['\t'], nofun, htab, by decide⟩
  · exact ⟨_, .atom 0x1F, [' '], [' '], hspace, hspace, by decide⟩

end CommandLine

/-- A pickup may be listed twice, and neither the padding nor the mark makes a difference. -/
theorem startingTokens_of_printed_mixed :
    startingTokens mixedItems = .ok [.item 0x1F, .item 0, .item 0xFFFFFFFF, .item 0x1F] :=
  (startingTokens_of_printed listsItems_mixed).2 rfl

end Progression
