import Progression.Location.Key.Parser
import Progression.Proofs.Text.Hexadecimal
import Progression.Proofs.Text.Pieces

/-!
# Spellings of keys

A key may be written in other ways than the one in which it is printed: its letters in either case, blanks around it,
and zeros before the index of the entity. However it is spelled, it is read as the same key (`ofText_spelled`).
-/

namespace Progression

namespace Text

/-- The texts are the same but for the case of ASCII letters. -/
def SameButCase (s t : List Char) : Prop := s.map Char.toUpper = t.map Char.toUpper

instance (s t : List Char) : Decidable (SameButCase s t) :=
  inferInstanceAs (Decidable (s.map Char.toUpper = t.map Char.toUpper))

end Text

/-- The text is the printed key, with letters of either case and blanks around it. -/
def RoomKey.Spelled (k : RoomKey) (s : String) : Prop :=
  ∃ t, Text.SameButCase t k.display.toList ∧ Text.Padded t s.toList

/-- The printed key with further zeros before the index of the entity. -/
def LocationKey.displayWith (k : LocationKey) (zeros : Nat) : String :=
  k.room.display ++ "_" ++ String.ofList (List.replicate zeros '0') ++ hexPair k.entity.toNat

/-- The text is the printed key, with further zeros before the index of the entity, letters of either case and blanks
around it. -/
def LocationKey.Spelled (k : LocationKey) (s : String) : Prop :=
  ∃ zeros t, Text.SameButCase t (k.displayWith zeros).toList ∧ Text.Padded t s.toList

/-- A printed key has no further zeros. -/
theorem LocationKey.displayWith_zero (k : LocationKey) : k.displayWith 0 = k.display := by
  rw [displayWith, List.replicate_zero, String.ofList_nil, String.append_empty, display]

/-! ## Case -/

namespace Text

open Hexadecimal (toUpper_eq_self of_smallLetter)

variable {s a b : List Char} {c d sep : Char}

/-- A character that is no letter is not another one in upper case. -/
theorem eq_of_toUpper_eq (hd : d.isAlpha = false) (h : c.toUpper = d.toUpper) : c = d := by
  have hself : d.toUpper = d := toUpper_eq_self fun hsmall => by
    have hletter : d.isAlpha := of_smallLetter (P := fun c => c.isAlpha) (by decide) hsmall
    rw [hd] at hletter
    cases hletter
  rw [hself] at h
  by_cases hsmall : 97 ≤ c.toNat ∧ c.toNat ≤ 122
  · have hletter : c.toUpper.isAlpha := of_smallLetter (P := fun c => c.toUpper.isAlpha) (by decide) hsmall
    rw [h, hd] at hletter
    cases hletter
  · rw [← h, toUpper_eq_self hsmall]

/-- Texts that differ in case only are cut at the same places. -/
theorem SameButCase.exists_cut (hsep : sep.isAlpha = false) (h : SameButCase s (a ++ sep :: b)) :
    ∃ a' b', s = a' ++ sep :: b' ∧ SameButCase a' a ∧ SameButCase b' b := by
  rw [SameButCase, List.map_append, List.map_cons, List.map_eq_append_iff] at h
  obtain ⟨a', l, rfl, ha, hl⟩ := h
  obtain ⟨c, b', rfl, hc, hb⟩ := List.map_eq_cons_iff.1 hl
  obtain rfl := eq_of_toUpper_eq hsep hc
  exact ⟨a', b', rfl, ha, hb⟩

theorem SameButCase.length_eq {t : List Char} (h : SameButCase s t) : s.length = t.length := by
  simpa using congrArg List.length h

theorem SameButCase.value?_eq {t : List Char} (h : SameButCase s t) : Hexadecimal.value? s = Hexadecimal.value? t := by
  rw [Hexadecimal.value?, ← Hexadecimal.valueAfter?_map_toUpper, h, Hexadecimal.valueAfter?_map_toUpper,
    Hexadecimal.value?]

theorem cutAt_append_cons (h : sep ∉ a) : cutAt sep (a ++ sep :: b) = some (a, b) := by
  induction a with
  | nil => simp [cutAt]
  | cons c a ih =>
    obtain ⟨hc, ha⟩ := not_or.1 (mt List.mem_cons.2 h)
    simp [cutAt, Ne.symm hc, ih ha]

end Text

open Text (SameButCase Padded isBlank)

variable {p t : List Char} {s whole : String} {n : UInt8}

/-! ## The parts of a key -/

theorem value?_of_sameButCase {width m : Nat} (h : SameButCase p (Hexadecimal.digits width m)) :
    Hexadecimal.value? p = some m := by
  rw [h.value?_eq, Hexadecimal.value?_digits]

theorem utf8ByteSize_of_isDigit (h : ∀ c ∈ p, Hexadecimal.isDigit c) : (String.ofList p).utf8ByteSize = p.length := by
  induction p with
  | nil => rfl
  | cons c p ih =>
    obtain ⟨hc, hp⟩ := List.forall_mem_cons.1 h
    have hsize : c.utf8Size = 1 := Hexadecimal.of_isDigit (P := fun c => c.utf8Size = 1) (by decide) hc
    rw [String.ofList_cons, String.utf8ByteSize_append, String.utf8ByteSize_singleton, hsize, ih hp, List.length_cons,
      Nat.add_comm]

/-- Two digits of either case are read as the part of a room key that they are printed from. -/
theorem readPart_of_sameButCase (h : SameButCase p (Hexadecimal.digits 2 n.toNat)) :
    RoomKey.readPart whole p = .ok n := by
  have hvalue := value?_of_sameButCase h
  have hlength : p.length = 2 := h.length_eq.trans (Hexadecimal.length_digits (by decide) n.toNat_lt)
  have hsize : (String.ofList p).utf8ByteSize = 2 :=
    (utf8ByteSize_of_isDigit (Hexadecimal.isDigit_of_valueAfter? hvalue)).trans hlength
  have hne : p ≠ [] := List.ne_nil_of_length_pos (by omega)
  rw [RoomKey.readPart, if_neg (not_not.2 hsize), Hexadecimal.read_of_value? hvalue hne n.toNat_lt]
  exact congrArg Except.ok UInt8.ofNat_toNat

theorem isDigit_of_sameButCase {width m : Nat} (h : SameButCase p (Hexadecimal.digits width m)) :
    ∀ c ∈ p, Hexadecimal.isDigit c :=
  Hexadecimal.isDigit_of_valueAfter? (value?_of_sameButCase h)

theorem notMem_of_isDigit {c : Char} (hc : Hexadecimal.isDigit c = false) (h : ∀ d ∈ p, Hexadecimal.isDigit d) :
    c ∉ p := fun hmem => by
  rw [h c hmem] at hc
  cases hc

/-- There are no blanks in a key, so only those around it fall away. -/
theorem trim_of_padded (h : ∀ c ∈ t, Hexadecimal.isDigit c ∨ c = '-' ∨ c = '_') (hp : Padded t p) :
    Text.trim p = t := by
  rw [Text.trim_padded hp, Text.trim_eq_self]
  intro c hc
  rcases h c hc with hdigit | rfl | rfl
  · exact Hexadecimal.of_isDigit (P := fun c => isBlank c = false) (by decide) hdigit
  · decide
  · decide

theorem RoomKey.toList_display (k : RoomKey) :
    k.display.toList = Hexadecimal.digits 2 k.area.toNat ++ '-' ::
      (Hexadecimal.digits 2 k.sector.toNat ++ '-' :: Hexadecimal.digits 2 k.room.toNat) := by
  simp [RoomKey.display, hexPair]

theorem LocationKey.toList_displayWith (k : LocationKey) (zeros : Nat) :
    (k.displayWith zeros).toList = k.room.display.toList ++ '_' ::
      (List.replicate zeros '0' ++ Hexadecimal.digits 2 k.entity.toNat) := by
  simp [LocationKey.displayWith, hexPair]

/-- A room is cut into its three numbers, whatever their case. -/
theorem RoomKey.exists_parts {k : RoomKey} (h : SameButCase t k.display.toList) :
    ∃ a b c, t = a ++ '-' :: (b ++ '-' :: c) ∧ SameButCase a (Hexadecimal.digits 2 k.area.toNat) ∧
      SameButCase b (Hexadecimal.digits 2 k.sector.toNat) ∧ SameButCase c (Hexadecimal.digits 2 k.room.toNat) := by
  rw [RoomKey.toList_display] at h
  obtain ⟨a, l, rfl, ha, hl⟩ := h.exists_cut (by decide)
  obtain ⟨b, c, rfl, hb, hc⟩ := hl.exists_cut (by decide)
  exact ⟨a, b, c, rfl, ha, hb, hc⟩

/-- The characters of a printed room are digits and hyphens, whatever their case. -/
theorem RoomKey.isDigit_or_hyphen {k : RoomKey} (h : SameButCase t k.display.toList) :
    ∀ c ∈ t, Hexadecimal.isDigit c ∨ c = '-' := by
  obtain ⟨a, b, c, rfl, ha, hb, hc⟩ := RoomKey.exists_parts h
  intro d hd
  simp only [List.mem_append, List.mem_cons] at hd
  rcases hd with hd | rfl | hd | rfl | hd
  · exact .inl (isDigit_of_sameButCase ha d hd)
  · exact .inr rfl
  · exact .inl (isDigit_of_sameButCase hb d hd)
  · exact .inr rfl
  · exact .inl (isDigit_of_sameButCase hc d hd)

/-! ## Reading a spelling -/

theorem RoomKey.ofText_of_spelled {k : RoomKey} (h : k.Spelled s) : RoomKey.ofText s = .ok k := by
  obtain ⟨t, ht, hpadded⟩ := h
  have htrim : Text.trim s.toList = t :=
    trim_of_padded (fun c hc => (RoomKey.isDigit_or_hyphen ht c hc).imp_right .inl) hpadded
  obtain ⟨a, b, c, rfl, ha, hb, hc⟩ := RoomKey.exists_parts ht
  have hhyphen : ∀ {p : List Char} {m : Nat}, SameButCase p (Hexadecimal.digits 2 m) → '-' ∉ p := fun hp =>
    notMem_of_isDigit (by decide) (isDigit_of_sameButCase hp)
  rw [RoomKey.ofText, htrim, List.splitOn_append_cons_self_of_not_mem (hhyphen ha),
    List.splitOn_append_cons_self_of_not_mem (hhyphen hb), List.splitOn_eq_singleton (hhyphen hc)]
  simp only [readPart_of_sameButCase ha, readPart_of_sameButCase hb, readPart_of_sameButCase hc]
  rfl

theorem LocationKey.ofText_of_spelled {k : LocationKey} (h : k.Spelled s) : LocationKey.ofText s = .ok k := by
  obtain ⟨zeros, t, ht, hpadded⟩ := h
  rw [LocationKey.toList_displayWith] at ht
  obtain ⟨room, entity, rfl, hroom, hentity⟩ := ht.exists_cut (by decide)
  have hvalue : Hexadecimal.value? entity = some k.entity.toNat := by
    rw [hentity.value?_eq, Hexadecimal.value?_zeros_append, Hexadecimal.value?_digits]
  have hroomChars := RoomKey.isDigit_or_hyphen hroom
  have htrim : Text.trim s.toList = room ++ '_' :: entity := by
    refine trim_of_padded (List.forall_mem_append.2 ⟨fun c hc => (hroomChars c hc).imp_right .inl, ?_⟩) hpadded
    exact List.forall_mem_cons.2 ⟨.inr (.inr rfl), fun c hc => .inl (Hexadecimal.isDigit_of_valueAfter? hvalue c hc)⟩
  have hunderscore : '_' ∉ room := fun hmem => absurd (hroomChars '_' hmem) (by decide)
  have hread : RoomKey.ofText (String.ofList room) = .ok k.room := by
    refine RoomKey.ofText_of_spelled ⟨room, hroom, ?_⟩
    rw [String.toList_ofList]
    exact Text.padded_self room
  have hne : entity ≠ [] := by
    have hlength := hentity.length_eq
    have hdigits := Hexadecimal.le_length_digits 2 k.entity.toNat
    rw [List.length_append] at hlength
    exact List.ne_nil_of_length_pos (by omega)
  rw [LocationKey.ofText, htrim, Text.cutAt_append_cons hunderscore]
  simp only [hread, Hexadecimal.read_of_value? hvalue hne k.entity.toNat_lt]
  show Except.ok (⟨k.room, UInt16.ofNat k.entity.toNat⟩ : LocationKey) = .ok k
  rw [UInt16.ofNat_toNat]

/-- What is printed is a spelling of the key, and every spelling of a key is read as the key. -/
theorem ofText_spelled :
    (∀ k : RoomKey, k.Spelled k.display) ∧ (∀ k : LocationKey, k.Spelled k.display) ∧
      (∀ (k : RoomKey) (s : String), k.Spelled s → RoomKey.ofText s = .ok k) ∧
      ∀ (k : LocationKey) (s : String), k.Spelled s → LocationKey.ofText s = .ok k := by
  refine ⟨fun k => ⟨_, rfl, Text.padded_self _⟩, fun k => ⟨0, _, ?_, Text.padded_self _⟩,
    fun _ _ => RoomKey.ofText_of_spelled, fun _ _ => LocationKey.ofText_of_spelled⟩
  rw [LocationKey.displayWith_zero]
  exact rfl

/-- Small letters, five zeros and blanks, one of them no blank of ASCII, make no difference. -/
theorem ofText_spelled_respelled :
    RoomKey.ofText "\t0a-01-1F" = .ok ⟨0x0A, 0x01, 0x1F⟩ ∧
      LocationKey.ofText "\u2003 0a-01-1f_0000003  " = .ok ⟨⟨0x0A, 0x01, 0x1F⟩, 0x0003⟩ := by
  obtain ⟨-, -, hroom, hlocation⟩ := ofText_spelled
  have htab : ∀ c ∈ ['\t'], isBlank c = true := List.forall_mem_singleton.2 (by decide)
  have hspaces : ∀ c ∈ [' ', ' '], isBlank c = true := List.forall_mem_cons.2 ⟨by decide, by simp [isBlank]⟩
  have hwide : ∀ c ∈ ['\u2003', ' '], isBlank c = true := List.forall_mem_cons.2 ⟨by decide, by simp [isBlank]⟩
  exact ⟨hroom _ _ ⟨"0a-01-1F".toList, by decide, ['\t'], [], htab, nofun, rfl⟩,
    hlocation _ _ ⟨5, "0a-01-1f_0000003".toList, by decide, ['\u2003', ' '], [' ', ' '], hwide, hspaces, rfl⟩⟩

end Progression
