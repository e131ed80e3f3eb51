import Progression.Proofs.Evaluation.Plain
import Progression.Proofs.Evaluation.Row

/-!
# Names decided on their own

A name can be decided with nothing in mind but the name itself: within its own requirement it is denied, and any other
name is decided on its own again. Where no cycle of references through two names can be reached, no other name is ever
open when it comes up again, so a check comes to just this, whatever was decided with its memo before
(`checkName_eventually_solo`). Hence names that are decided in a row with one memo are decided as each is when it is
asked first (`rowAgrees_of_untangled`).
-/

namespace Progression

namespace Plain

section

variable (book : Rulebook) (held : Inventory)

/-- Decides a name on its own. -/
def solo : Nat → Name → Plain Bool
  | 0, _ => ExceptT.mk none
  | depth + 1, n =>
    match book.meaning n with
    | .constant value => return value
    | .undefined => throw n
    | .token t => return t ∈ held
    | .bound r => r.evaluate held fun k => if k = n then return false else solo depth k

/-- A name on its own at every depth. -/
def soloAt (n : Name) : ReaderT Nat Plain Bool := fun depth => solo book held depth n

/-- A name while some names are open: these are denied. -/
def within (opened : List Name) (n : Name) : ReaderT Nat Plain Bool :=
  if n ∈ opened then return false else soloAt book held n

end

variable {book : Rulebook} {held : Inventory} {n : Name}

theorem eventually_solo_of_constant {b : Bool} (hmean : book.meaning n = .constant b) :
    Eventually (.ok b) (soloAt book held n) := by
  refine (eventually_result _).succ fun depth => ?_
  show solo book held (depth + 1) n = _
  rw [solo, hmean]
  rfl

theorem eventually_solo_of_undefined (hmean : book.meaning n = .undefined) :
    Eventually (.error n) (soloAt book held n) := by
  refine (eventually_result _).succ fun depth => ?_
  show solo book held (depth + 1) n = _
  rw [solo, hmean]
  rfl

theorem eventually_solo_of_token {t : Token} (hmean : book.meaning n = .token t) :
    Eventually (.ok (t ∈ held : Bool)) (soloAt book held n) := by
  refine (eventually_result _).succ fun depth => ?_
  show solo book held (depth + 1) n = _
  rw [solo, hmean]
  rfl

/-- A name that is opened comes to what its requirement does while only this name is open. -/
theorem eventually_solo_of_bound {r : Requirement} {a : Except Name Bool} (hmean : book.meaning n = .bound r)
    (h : Eventually a (r.evaluate held (within book held [n]))) : Eventually a (soloAt book held n) := by
  refine h.succ fun depth => ?_
  have hask : (fun k => (within book held [n] k).run depth) =
      fun k => if k = n then return false else solo book held depth k := by
    funext k
    unfold within
    by_cases hk : k = n
    · rw [if_pos (List.mem_singleton.2 hk), if_pos hk]
      rfl
    · rw [if_neg (mt List.mem_singleton.1 hk), if_neg hk]
      rfl
  show solo book held (depth + 1) n = _
  rw [run_evaluate, hask, solo, hmean]

end Plain

section

variable {book : Rulebook} {held : Inventory} {opened : List Name} {memo : Memo} {n : Name}

/-! ## Open names -/

/-- The name is asked for while some names are open: it is untangled, and these are bound and lead to it. -/
structure AskedWithin (book : Rulebook) (opened : List Name) (n : Name) : Prop where
  untangled : book.definitions.Untangled n
  leadTo : LeadTo book (· ∈ opened) n
  bound : ∀ g ∈ opened, ∃ r, book.meaning g = .bound r

namespace AskedWithin

theorem nothing (h : book.definitions.Untangled n) : AskedWithin book [] n where
  untangled := h
  leadTo _ hg := absurd hg List.not_mem_nil
  bound _ hg := absurd hg List.not_mem_nil

theorem not_mem_of_meaning {m : Meaning} (h : AskedWithin book opened n) (hmean : book.meaning n = m)
    (hm : ∀ r, m ≠ .bound r) : n ∉ opened := by
  intro hn
  obtain ⟨r, hr⟩ := h.bound n hn
  exact hm r (hmean.symm.trans hr)

theorem mark {r : Requirement} {k : Name} (h : AskedWithin book opened n) (hmean : book.meaning n = .bound r)
    (hk : k ∈ r.references) : AskedWithin book (n :: opened) k where
  untangled := h.untangled.of_refers (book.refers_of_meaning_bound hmean hk)
  leadTo g hg := h.leadTo.mark hmean hk g (List.mem_cons.1 hg)
  bound g hg := by
    rcases List.mem_cons.1 hg with rfl | hg
    · exact ⟨r, hmean⟩
    · exact h.bound g hg

/-- A name that an untangled name refers to is open only if it is that name. -/
theorem mem_iff {r : Requirement} {k : Name} (h : AskedWithin book opened n) (hmean : book.meaning n = .bound r)
    (hk : k ∈ r.references) : k ∈ n :: opened ↔ k ∈ [n] := by
  rw [List.mem_cons, List.mem_singleton]
  refine ⟨fun hopened => hopened.elim id fun hmem => ?_, .inl⟩
  exact h.untangled.eq_of_refers (book.refers_of_meaning_bound hmean hk) (h.leadTo k hmem)

/-- So the names that were open before make no difference to its requirement. -/
theorem evaluate_within {r : Requirement} (h : AskedWithin book opened n) (hmean : book.meaning n = .bound r) :
    r.evaluate held (Plain.within book held (n :: opened)) = r.evaluate held (Plain.within book held [n]) := by
  refine evaluate_congr (fun _ _ => Iff.rfl) fun k hk => ?_
  unfold Plain.within
  simp only [h.mem_iff hmean hk]

end AskedWithin

/-! ## The memo -/

/-- The names that are open are marked, once each, and settled names answer as on their own. -/
structure SoloMemo (book : Rulebook) (held : Inventory) (opened : List Name) (memo : Memo) : Prop where
  nodup : opened.Nodup
  marked (n : Name) : memo.get? n = some .inProgress ↔ n ∈ opened
  settled {n : Name} {b : Bool} : memo.get? n = some (.settled b) → Plain.Eventually (.ok b) (Plain.soloAt book held n)

namespace SoloMemo

theorem empty : SoloMemo book held [] ∅ where
  nodup := List.nodup_nil
  marked n := by simp
  settled h := by simp at h

theorem not_mem_of_get? {y : Option Resolution} (h : SoloMemo book held opened memo) (hget : memo.get? n = y)
    (hy : y ≠ some .inProgress) : n ∉ opened := by
  intro hn
  exact hy (hget.symm.trans ((h.marked n).2 hn))

theorem mark (h : SoloMemo book held opened memo) (hn : n ∉ opened) :
    SoloMemo book held (n :: opened) (memo.set n .inProgress) where
  nodup := List.nodup_cons.2 ⟨hn, h.nodup⟩
  marked k := by
    rw [Table.get?_set, List.mem_cons]
    by_cases hk : k = n <;> simp [hk, h.marked]
  settled {k b} hk := by
    rw [Table.get?_set] at hk
    split at hk
    · cases hk
    · exact h.settled hk

/-- Settling a name as it is on its own closes it. -/
theorem settle {b : Bool} (hn : n ∉ opened) (hopened : opened.Nodup)
    (hmarked : ∀ k, k ≠ n → (memo.get? k = some .inProgress ↔ k ∈ opened))
    (hsettled : ∀ {k c}, memo.get? k = some (.settled c) → Plain.Eventually (.ok c) (Plain.soloAt book held k))
    (hb : Plain.Eventually (.ok b) (Plain.soloAt book held n)) :
    SoloMemo book held opened (memo.set n (.settled b)) where
  nodup := hopened
  marked k := by
    rw [Table.get?_set]
    by_cases hk : k = n
    · rw [if_pos hk, hk]
      exact iff_of_false (by simp) hn
    · rw [if_neg hk]
      exact hmarked k hk
  settled {k c} hk := by
    rw [Table.get?_set] at hk
    split at hk
    · next hkn => cases hk; rw [hkn]; exact hb
    · exact hsettled hk

end SoloMemo

/-! ## Checks -/

/-- Below an untangled name a check denies the open names and decides any other name as it is on its own. -/
theorem settles_solo (book : Rulebook) (held : Inventory) :
    Settles book held (fun opened n => n :: opened) (AskedWithin book) (SoloMemo book held)
      (fun opened _ => opened.Nodup) Plain.Eventually (Plain.within book held) where
  follows := Plain.follows_eventually
  constant {opened n b} hn hmean := by
    rw [Plain.within, if_neg (hn.not_mem_of_meaning hmean nofun)]
    exact Plain.eventually_solo_of_constant hmean
  undefined {opened n memo} hn hmemo hmean := by
    rw [Plain.within, if_neg (hn.not_mem_of_meaning hmean nofun)]
    exact ⟨Plain.eventually_solo_of_undefined hmean, hmemo.nodup⟩
  known {opened n memo y} _ hmemo hget := by
    cases y with
    | inProgress =>
      rw [Plain.within, if_pos ((hmemo.marked n).1 hget)]
      exact Plain.eventually_pure false
    | settled b =>
      rw [Plain.within, if_neg (hmemo.not_mem_of_get? hget (by simp))]
      exact hmemo.settled hget
  token {opened n memo t} hn hmemo hmean hget := by
    have hopened := hn.not_mem_of_meaning hmean nofun
    have hname : Plain.Eventually (.ok (t ∈ held : Bool)) (Plain.soloAt book held n) :=
      Plain.eventually_solo_of_token hmean
    rw [Plain.within, if_neg hopened]
    exact ⟨hname, .settle hopened hmemo.nodup (fun k _ => hmemo.marked k) hmemo.settled hname⟩
  mark {opened n memo r} hn hmemo hmean hget :=
    ⟨hmemo.mark (hmemo.not_mem_of_get? hget nofun), fun _ hk => hn.mark hmean hk⟩
  settle {opened n m r b} hn hmean hm hbody := by
    obtain ⟨hopened, hnodup⟩ := List.nodup_cons.1 hm.nodup
    rw [hn.evaluate_within hmean] at hbody
    have hname := Plain.eventually_solo_of_bound hmean hbody
    rw [Plain.within, if_neg hopened]
    refine ⟨hname, .settle hopened hnodup (fun k hk => ?_) hm.settled hname⟩
    rw [hm.marked, List.mem_cons]
    exact or_iff_right hk
  stop {opened n m r e} hn hmean hm hbody := by
    obtain ⟨hopened, hnodup⟩ := List.nodup_cons.1 hm
    rw [hn.evaluate_within hmean] at hbody
    rw [Plain.within, if_neg hopened]
    exact ⟨Plain.eventually_solo_of_bound hmean hbody, hnodup⟩

/-- While no names are open, an untangled name comes to what it does on its own, whatever is settled. -/
theorem checkName_eventually_solo (hn : book.definitions.Untangled n) (hmemo : SoloMemo book held [] memo) :
    Plain.Eventually ((book.checkName held n).on memo).1 (Plain.soloAt book held n) ∧
      ∀ b m, (book.checkName held n).on memo = (.ok b, m) → SoloMemo book held [] m := by
  have hyields := (settles_solo book held).checkName (AskedWithin.nothing hn)
  have hwithin : Plain.within book held [] n = Plain.soloAt book held n := if_neg List.not_mem_nil
  rw [hwithin] at hyields
  exact ⟨(hyields memo hmemo).1, fun b m hrun => (hyields.of_ok hmemo hrun).2⟩

/-- An untangled name that is asked first answers as it does on its own. -/
theorem checkName_eq_ok_iff_solo (hn : book.definitions.Untangled n) {b : Bool} :
    ((book.checkName held n).on ∅).1 = .ok b ↔ Plain.Eventually (.ok b) (Plain.soloAt book held n) := by
  have hfirst : Plain.Eventually ((book.checkName held n).on ∅).1 (Plain.soloAt book held n) :=
    (checkName_eventually_solo hn .empty).1
  constructor
  · intro h
    rwa [h] at hfirst
  · exact hfirst.unique

/-- Untangled names in a row with one memo are answered as each is when it is asked first, whatever is settled. -/
theorem checkNames_eq_ok_iff {ns : List Name} {bs : List Bool} (hns : ∀ n ∈ ns, book.definitions.Untangled n)
    (hmemo : SoloMemo book held [] memo) :
    ((book.checkNames held ns).on memo).1 = .ok bs ↔
      List.Forall₂ (fun n b => ((book.checkName held n).on ∅).1 = .ok b) ns bs := by
  rw [Check.on_eq_ok]
  induction ns generalizing memo bs with
  | nil =>
    rw [List.forall₂_nil_left_iff]
    constructor
    · rintro ⟨m, h⟩
      cases h
      rfl
    · rintro rfl
      exact ⟨memo, rfl⟩
  | cons n ns ih =>
    obtain ⟨hn, hns⟩ := List.forall_mem_cons.1 hns
    obtain ⟨hname, hafter⟩ := checkName_eventually_solo hn hmemo
    rw [List.forall₂_cons_left_iff]
    constructor
    · rintro ⟨m', h⟩
      obtain ⟨b, cs, m, rfl, hb, hcs⟩ := checkNames_cons_eq_ok.1 h
      rw [hb] at hname
      exact ⟨b, cs, (checkName_eq_ok_iff_solo hn).2 hname, (ih hns (hafter b m hb)).1 ⟨m', hcs⟩, rfl⟩
    · rintro ⟨b, cs, hb, hcs, rfl⟩
      have hrun : (book.checkName held n).on memo = (.ok b, ((book.checkName held n).on memo).2) :=
        Prod.ext (hname.unique ((checkName_eq_ok_iff_solo hn).1 hb)) rfl
      obtain ⟨m', hrest⟩ := (ih hns (hafter b _ hrun)).2 hcs
      exact ⟨m', checkNames_cons_eq_ok.2 ⟨b, cs, _, rfl, hrun, hrest⟩⟩

theorem rowAgrees_of_untangled {ns : List Name} (hns : ∀ n ∈ ns, book.definitions.Untangled n) (held : Inventory) :
    book.RowAgrees held ns :=
  fun _ => checkNames_eq_ok_iff hns .empty

end

end Progression
