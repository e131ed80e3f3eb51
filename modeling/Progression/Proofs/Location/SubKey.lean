import Progression.Location.SubKey
import Progression.Proofs.Failing
import Progression.Proofs.FirstOccurrence
import Progression.Proofs.Location.Spelling
import Progression.Proofs.Text.Bytes

/-!
# Reading the key of an entity

The key of an entity is read as the value of the digits that it begins with and as the tags that its groups name. It is
not read where it begins with no digit, where the value has no room in sixteen bits, or where a group is not closed.
A reader that finds its way by byte positions comes to the same and never cuts a character in two, whatever characters
the key has (`walk?_eq`).
-/

namespace Progression

open Hexadecimal (isDigit value?)
open Text (byteSize splitAtByte? slice? findByte?)

/-! ## What is read -/

section Defs

/-- The groups of a text. Each goes from the first opening parenthesis after the group before it to the next closing
one. -/
inductive Grouped : List Char → List (List Char) → Prop
  | none {s : List Char} (hs : '(' ∉ s) : Grouped s []
  | group {a g rest : List Char} {groups : List (List Char)} (ha : '(' ∉ a) (hg : ')' ∉ g) (h : Grouped rest groups) :
    Grouped (a ++ '(' :: (g ++ ')' :: rest)) (g :: groups)

/-- A parenthesis is opened and none is closed after it. -/
def Unclosed (s : List Char) : Prop := ∃ a b, s = a ++ '(' :: b ∧ ')' ∉ b

/-- The tags are those whose text is one of the texts, each once, in the order in which the texts first name them. -/
structure NamedBy (tags : List Tag) (texts : List String) : Prop where
  nodup : tags.Nodup
  mem_iff : ∀ t, t ∈ tags ↔ t.text ∈ texts
  order : tags.Pairwise fun t u => texts.idxOf t.text < texts.idxOf u.text

namespace SubKey

/-- The digits that a key begins with. -/
def index (s : String) : List Char := (Text.trim s.toList).takeWhile isDigit

/-- What a key has after its digits. -/
def remainder (s : String) : List Char := (Text.trim s.toList).dropWhile isDigit

end SubKey

/-- The groups of a text, found by byte positions, if the last one is closed. There is no answer where the text would be
cut inside a character. -/
def walkGroups? (s : List Char) : Option (Option (List (List Char))) :=
  match findByte? (· = '(') s with
  | none => some (some [])
  | some start =>
    match splitAtByte? start s with
    | none => none
    | some (_, opened) =>
      match findByte? (· = ')') opened with
      | none => some none
      | some length =>
        match slice? (start + 1) (start + length) s with
        | none => none
        | some group =>
          match _h : splitAtByte? (start + length + 1) s with
          | none => none
          | some (_, rest) => (walkGroups? rest).map fun groups => groups.map (group :: ·)
termination_by s.length
decreasing_by exact Text.length_lt_of_splitAtByte? _h

/-- The key of an entity, read by byte positions. There is no answer where the key would be cut inside a character. -/
def SubKey.walk? (s : String) : Option (Except Failure SubKey) :=
  let key := Text.trim s.toList
  let quoted := String.ofList key
  let length := (findByte? (fun c => !isDigit c) key).getD (byteSize key)
  if length = 0 then some (fail (.noEntityIndex quoted))
  else
    match slice? 0 length key, splitAtByte? length key with
    | some index, some (_, rest) =>
      match Hexadecimal.read UInt16.size index with
      | .error e => some (within (.entityNumeral quoted) (fail (.numeral e)))
      | .ok n =>
        (walkGroups? rest).map fun
          | none => fail (.unbalancedParenthesis quoted)
          | some groups => .ok ⟨n.toUInt16, Tag.ofGroups groups⟩
    | _, _ => none

end Defs

variable {s a b g rest : List Char} {groups : List (List Char)}

/-! ## One group after another -/

section Groups

/-- A text has no group, or one that is not closed, or one before what is left of the text. -/
@[elab_as_elim]
theorem groupsInduction {P : List Char → Prop} (none : ∀ s, '(' ∉ s → P s)
    (unclosed : ∀ a b, '(' ∉ a → ')' ∉ b → P (a ++ '(' :: b))
    (group : ∀ a g rest, '(' ∉ a → ')' ∉ g → P rest → P (a ++ '(' :: (g ++ ')' :: rest))) (s : List Char) : P s := by
  induction hn : s.length using Nat.strongRecOn generalizing s with
  | ind n ih =>
    by_cases hopen : '(' ∈ s
    · obtain ⟨a, b, rfl, ha⟩ := List.eq_append_cons_of_mem hopen
      by_cases hclose : ')' ∈ b
      · obtain ⟨g, rest, rfl, hg⟩ := List.eq_append_cons_of_mem hclose
        apply group a g rest ha hg
        refine ih rest.length ?_ rest rfl
        simp only [List.length_append, List.length_cons] at hn
        omega
      · exact unclosed a b ha hclose
    · exact none s hopen

/-- The reading of groups without its measure. -/
theorem groups?_eq (s : List Char) :
    groups? s =
      match Text.cutAt '(' s with
      | none => some []
      | some (_, inner) =>
        match Text.cutAt ')' inner with
        | none => none
        | some (group, rest) => (groups? rest).map (group :: ·) := by
  rw [groups?]
  split
  · next hopen => rw [hopen]
  · next hopen =>
    rw [hopen]
    split
    · next hclose => simp only [hclose]
    · next hclose => simp only [hclose]

theorem groups?_of_notMem (h : '(' ∉ s) : groups? s = some [] := by
  have hcut : Text.cutAt '(' s = none := Text.cutAt_eq_none.2 h
  rw [groups?_eq, hcut]

theorem groups?_of_unclosed (ha : '(' ∉ a) (hb : ')' ∉ b) : groups? (a ++ '(' :: b) = none := by
  have hcut : Text.cutAt '(' (a ++ '(' :: b) = some (a, b) := Text.cutAt_append_cons ha
  have hopen : Text.cutAt ')' b = none := Text.cutAt_eq_none.2 hb
  simp only [groups?_eq, hcut, hopen]

theorem groups?_of_group (ha : '(' ∉ a) (hg : ')' ∉ g) :
    groups? (a ++ '(' :: (g ++ ')' :: rest)) = (groups? rest).map (g :: ·) := by
  have hcut : Text.cutAt '(' (a ++ '(' :: (g ++ ')' :: rest)) = some (a, g ++ ')' :: rest) := Text.cutAt_append_cons ha
  have hclose : Text.cutAt ')' (g ++ ')' :: rest) = some (g, rest) := Text.cutAt_append_cons hg
  rw [groups?_eq, hcut]
  simp only [hclose]

theorem not_unclosed (h : '(' ∉ s) : ¬ Unclosed s := by
  rintro ⟨a, b, rfl, -⟩
  simp at h

/-- What stands before a closing parenthesis does not matter for what is open after it. -/
theorem unclosed_append_cons : Unclosed (a ++ ')' :: rest) ↔ Unclosed rest := by
  constructor
  · rintro ⟨a', b, hs, hb⟩
    rcases List.append_eq_append_iff.1 hs with ⟨c, rfl, hc⟩ | ⟨c, rfl, hc⟩
    · cases c with
      | nil => simp at hc
      | cons d c =>
        obtain ⟨-, rfl⟩ := List.cons.inj hc
        exact ⟨c, b, rfl, hb⟩
    · -- the closing parenthesis would stand behind the one that is open
      cases c with
      | nil => simp at hc
      | cons d c =>
        obtain ⟨-, rfl⟩ := List.cons.inj hc
        simp at hb
  · rintro ⟨a', b, rfl, hb⟩
    exact ⟨a ++ ')' :: a', b, by simp, hb⟩

theorem groups?_eq_none : groups? s = none ↔ Unclosed s := by
  induction s using groupsInduction with
  | none s h =>
    rw [groups?_of_notMem h]
    exact iff_of_false nofun (not_unclosed h)
  | unclosed a b ha hb => exact iff_of_true (groups?_of_unclosed ha hb) ⟨a, b, rfl, hb⟩
  | group a g rest ha hg ih =>
    have hassoc : a ++ '(' :: (g ++ ')' :: rest) = (a ++ '(' :: g) ++ ')' :: rest := by simp
    rw [groups?_of_group ha hg, Option.map_eq_none_iff, ih, hassoc, unclosed_append_cons]

theorem groups?_eq_some : groups? s = some groups ↔ Grouped s groups := by
  constructor
  · intro h
    induction s using groupsInduction generalizing groups with
    | none s hs =>
      rw [groups?_of_notMem hs] at h
      cases h
      exact .none hs
    | unclosed a b ha hb =>
      rw [groups?_of_unclosed ha hb] at h
      cases h
    | group a g rest ha hg ih =>
      rw [groups?_of_group ha hg] at h
      obtain ⟨groups, hrest, rfl⟩ := Option.map_eq_some_iff.1 h
      exact .group ha hg (ih hrest)
  · intro h
    induction h with
    | none hs => exact groups?_of_notMem hs
    | group ha hg _ ih => rw [groups?_of_group ha hg, ih, Option.map_some]

/-- The tags of a key are named by the texts of its groups. -/
theorem namedBy_ofGroups (groups : List (List Char)) : NamedBy (Tag.ofGroups groups) (groups.map String.ofList) := by
  have htags : Tag.ofGroups groups = ((groups.map String.ofList).filterMap Tag.ofText?).eraseDups := by
    rw [Tag.ofGroups, List.filterMap_map]
    rfl
  have horder := pairwise_eraseDups_filterMap (g := Tag.text) (fun _ _ => Tag.eq_text_of_ofText?)
    (groups.map String.ofList)
  rw [htags]
  refine ⟨nodup_of_pairwise_idxOf horder, ?_, horder⟩
  intro t
  rw [List.mem_eraseDups, List.mem_filterMap]
  constructor
  · rintro ⟨text, htext, ht⟩
    rwa [← Tag.eq_text_of_ofText? ht]
  · intro ht
    exact ⟨t.text, ht, Tag.ofText?_text t⟩

end Groups

/-! ## The way by byte positions -/

section Walk

theorem walkGroups?_of_notMem (h : '(' ∉ s) : walkGroups? s = some (some []) := by
  rw [walkGroups?, Text.findByte?_of_notMem h]

theorem walkGroups?_of_unclosed (ha : '(' ∉ a) (hb : ')' ∉ b) : walkGroups? (a ++ '(' :: b) = some none := by
  have hopen : findByte? (· = '(') (a ++ '(' :: b) = some (byteSize a) := Text.findByte?_append_cons_of_notMem ha
  have hcut : splitAtByte? (byteSize a) (a ++ '(' :: b) = some (a, '(' :: b) := Text.splitAtByte?_byteSize a ('(' :: b)
  have hclose : findByte? (· = ')') ('(' :: b) = none := by
    have hb' : ')' ∉ '(' :: b := by simpa using hb
    exact Text.findByte?_of_notMem hb'
  rw [walkGroups?]
  simp only [hopen, hcut, hclose]

theorem walkGroups?_of_group (ha : '(' ∉ a) (hg : ')' ∉ g) :
    walkGroups? (a ++ '(' :: (g ++ ')' :: rest)) = (walkGroups? rest).map fun groups => groups.map (g :: ·) := by
  set s := a ++ '(' :: (g ++ ')' :: rest) with hs
  have hopen : findByte? (· = '(') s = some (byteSize a) := Text.findByte?_append_cons_of_notMem ha
  have hcut : splitAtByte? (byteSize a) s = some (a, '(' :: (g ++ ')' :: rest)) := Text.splitAtByte?_byteSize a _
  have hclose : findByte? (· = ')') ('(' :: (g ++ ')' :: rest)) = some (byteSize ('(' :: g)) := by
    have hg' : ')' ∉ '(' :: g := by simpa using hg
    exact Text.findByte?_append_cons_of_notMem hg'
  -- a parenthesis takes one byte, so one byte behind its position is where the next character begins
  have hbefore : byteSize a + 1 = byteSize (a ++ ['(']) := by simp [Char.utf8Size]
  have hbehind : byteSize a + byteSize ('(' :: g) = byteSize (a ++ ['(']) + byteSize g := by
    simp only [Text.byteSize_append, Text.byteSize_cons, Text.byteSize_nil]
    omega
  have hend : byteSize a + byteSize ('(' :: g) + 1 = byteSize (a ++ '(' :: (g ++ [')'])) := by
    have hsize : (')' : Char).utf8Size = 1 := by decide
    simp only [Text.byteSize_append, Text.byteSize_cons, Text.byteSize_nil, hsize]
    omega
  have hgroup : slice? (byteSize a + 1) (byteSize a + byteSize ('(' :: g)) s = some g := by
    rw [hbefore, hbehind, hs]
    simpa using Text.slice?_byteSize (a ++ ['(']) g (')' :: rest)
  have hrest : splitAtByte? (byteSize a + byteSize ('(' :: g) + 1) s = some (a ++ '(' :: (g ++ [')']), rest) := by
    rw [hend, hs]
    simpa using Text.splitAtByte?_byteSize (a ++ '(' :: (g ++ [')'])) rest
  rw [walkGroups?]
  simp only [hopen, hcut, hclose, hgroup]
  split
  · next hnone => rw [hrest] at hnone; cases hnone
  · next hsome => rw [hrest] at hsome; cases hsome; rfl

/-- The groups that are found by byte positions are the groups, and no character is ever cut. -/
theorem walkGroups?_eq (s : List Char) : walkGroups? s = some (groups? s) := by
  induction s using groupsInduction with
  | none s h => rw [walkGroups?_of_notMem h, groups?_of_notMem h]
  | unclosed a b ha hb => rw [walkGroups?_of_unclosed ha hb, groups?_of_unclosed ha hb]
  | group a g rest ha hg ih => rw [walkGroups?_of_group ha hg, groups?_of_group ha hg, ih, Option.map_some]

/-- Reading a key in terms of the digits that it begins with and of what it has after them. -/
theorem SubKey.ofText_eq (s : String) :
    SubKey.ofText s =
      if index s = [] then fail (.noEntityIndex (String.ofList (Text.trim s.toList)))
      else
        match Hexadecimal.read UInt16.size (index s) with
        | .error e => within (.entityNumeral (String.ofList (Text.trim s.toList))) (fail (.numeral e))
        | .ok n =>
          match groups? (remainder s) with
          | none => fail (.unbalancedParenthesis (String.ofList (Text.trim s.toList)))
          | some groups => .ok ⟨n.toUInt16, Tag.ofGroups groups⟩ := rfl

/-- The key that is read by byte positions is the key, and no character is ever cut. -/
theorem SubKey.walk?_eq (s : String) : SubKey.walk? s = some (SubKey.ofText s) := by
  have hkey : Text.trim s.toList = index s ++ remainder s := (List.takeWhile_append_dropWhile).symm
  have hlength : (findByte? (fun c => !isDigit c) (Text.trim s.toList)).getD (byteSize (Text.trim s.toList)) =
      byteSize (index s) := Text.findByte?_getD isDigit _
  have hslice : slice? 0 (byteSize (index s)) (Text.trim s.toList) = some (index s) := by
    rw [hkey]
    simpa using Text.slice?_byteSize [] (index s) (remainder s)
  have hcut : splitAtByte? (byteSize (index s)) (Text.trim s.toList) = some (index s, remainder s) := by
    rw [hkey]
    exact Text.splitAtByte?_byteSize _ _
  simp only [SubKey.walk?, hlength, hslice, hcut, Text.byteSize_eq_zero, walkGroups?_eq]
  rw [SubKey.ofText_eq]
  by_cases hindex : index s = []
  · rw [if_pos hindex, if_pos hindex]
  · rw [if_neg hindex, if_neg hindex]
    cases Hexadecimal.read UInt16.size (index s) with
    | error e => rfl
    | ok n => cases groups? (remainder s) <;> rfl

end Walk

/-! ## Keys that are read -/

section Reading

variable {s : String} {k : SubKey}

theorem SubKey.isDigit_of_mem_index (s : String) : ∀ c ∈ index s, isDigit c :=
  fun _ => List.mem_takeWhile_imp

theorem read_index (hindex : SubKey.index s ≠ []) {n : Nat} :
    Hexadecimal.read UInt16.size (SubKey.index s) = .ok n ↔ value? (SubKey.index s) = some n ∧ n < UInt16.size :=
  Hexadecimal.read_eq_ok (by decide) hindex (SubKey.isDigit_of_mem_index s)

/-- A key is read if it begins with digits whose value has room in sixteen bits and its groups are closed; it has this
value and the tags of these groups. -/
theorem SubKey.ofText_eq_ok :
    SubKey.ofText s = .ok k ↔ index s ≠ [] ∧ value? (index s) = some k.entity.toNat ∧
      ∃ groups, Grouped (remainder s) groups ∧ k.tags = Tag.ofGroups groups := by
  rw [SubKey.ofText_eq]
  by_cases hindex : index s = []
  · rw [if_pos hindex]
    exact iff_of_false nofun fun h => h.1 hindex
  · rw [if_neg hindex]
    constructor
    · intro h
      refine ⟨hindex, ?_⟩
      cases hread : Hexadecimal.read UInt16.size (index s) with
      | error e => rw [hread] at h; cases h
      | ok n =>
        obtain ⟨hvalue, hn⟩ := (read_index hindex).1 hread
        rw [hread] at h
        cases hgroups : groups? (remainder s) with
        | none => simp only [hgroups] at h; cases h
        | some groups =>
          simp only [hgroups] at h
          cases h
          have hentity : (UInt16.ofNat n).toNat = n := UInt16.toNat_ofNat_of_lt' hn
          exact ⟨hvalue.trans (congrArg some hentity.symm), groups, groups?_eq_some.1 hgroups, rfl⟩
    · rintro ⟨-, hvalue, groups, hgrouped, htags⟩
      have hread : Hexadecimal.read UInt16.size (index s) = .ok k.entity.toNat :=
        (read_index hindex).2 ⟨hvalue, k.entity.toNat_lt⟩
      have hgroups : groups? (remainder s) = some groups := groups?_eq_some.2 hgrouped
      simp only [hread, hgroups]
      obtain ⟨entity, tags⟩ := k
      cases htags
      show Except.ok (⟨UInt16.ofNat entity.toNat, Tag.ofGroups groups⟩ : SubKey) = .ok ⟨entity, Tag.ofGroups groups⟩
      rw [UInt16.ofNat_toNat]

/-- What a key can lack. -/
theorem SubKey.exists_ofText_eq_error :
    (∃ f, SubKey.ofText s = .error f) ↔
      index s = [] ∨ (∃ n, value? (index s) = some n ∧ 0xFFFF < n) ∨ Unclosed (remainder s) := by
  rw [SubKey.ofText_eq]
  by_cases hindex : index s = []
  · rw [if_pos hindex]
    exact iff_of_true ⟨_, rfl⟩ (Or.inl hindex)
  · rw [if_neg hindex, or_iff_right hindex]
    obtain ⟨n, hn⟩ : ∃ n, value? (index s) = some n := Hexadecimal.exists_valueAfter? (isDigit_of_mem_index s) 0
    have hlarge : (∃ m, value? (index s) = some m ∧ 0xFFFF < m) ↔ ¬ n < UInt16.size := by
      have hsize : UInt16.size = 0xFFFF + 1 := rfl
      simp only [hn, Option.some.injEq, exists_eq_left', hsize]
      omega
    rw [hlarge, ← groups?_eq_none]
    cases hread : Hexadecimal.read UInt16.size (index s) with
    | error e =>
      have hn' : ¬ n < UInt16.size := by
        intro hlt
        rw [(read_index hindex).2 ⟨hn, hlt⟩] at hread
        cases hread
      exact iff_of_true ⟨_, rfl⟩ (Or.inl hn')
    | ok m =>
      obtain ⟨hm, hlt⟩ := (read_index hindex).1 hread
      obtain rfl : n = m := Option.some.inj (hn.symm.trans hm)
      rw [or_iff_right (not_not.2 hlt)]
      cases groups? (remainder s) with
      | none => exact iff_of_true ⟨_, rfl⟩ rfl
      | some groups => exact iff_of_false nofun nofun

end Reading

/-- Every key of an entity comes to a result, also by byte positions, of which none is inside a character. It is not
read if it begins with no digit, if its number is above the largest of sixteen bits, or if a parenthesis stays open, and
only then. A key that is read has the number of its first digits and the tags that its groups name. -/
theorem ofText_entity (s : String) :
    SubKey.walk? s = some (SubKey.ofText s) ∧
      ((∃ f, SubKey.ofText s = .error f) ↔
        SubKey.index s = [] ∨ (∃ n, value? (SubKey.index s) = some n ∧ 0xFFFF < n) ∨
          Unclosed (SubKey.remainder s)) ∧
      ∀ k, SubKey.ofText s = .ok k → value? (SubKey.index s) = some k.entity.toNat ∧
        ∃ groups, Grouped (SubKey.remainder s) groups ∧ NamedBy k.tags (groups.map String.ofList) := by
  refine ⟨SubKey.walk?_eq s, SubKey.exists_ofText_eq_error, ?_⟩
  intro k hk
  obtain ⟨-, hvalue, groups, hgrouped, htags⟩ := SubKey.ofText_eq_ok.1 hk
  refine ⟨hvalue, groups, hgrouped, ?_⟩
  rw [htags]
  exact namedBy_ofGroups groups

/-- A stray parenthesis, one that opens inside a group, a group that is no tag, a tag that comes twice, and a wide
character. -/
def crowdedKey : String := "  1c) ( (Hidden)é(No progression)(Ticket) (Hidden)(Enemy)(Hidden)"

theorem ofText_entity_crowdedKey :
    SubKey.ofText crowdedKey = .ok ⟨0x1C, [.noProgression, .hidden, .enemy]⟩ ∧
      value? (SubKey.index crowdedKey) = some 0x1C ∧
      ∃ groups, Grouped (SubKey.remainder crowdedKey) groups ∧
        NamedBy [.noProgression, .hidden, .enemy] (groups.map String.ofList) := by
  have hread : SubKey.ofText crowdedKey = .ok ⟨0x1C, [.noProgression, .hidden, .enemy]⟩ := by decide +kernel
  exact ⟨hread, (ofText_entity crowdedKey).2.2 _ hread⟩

end Progression
