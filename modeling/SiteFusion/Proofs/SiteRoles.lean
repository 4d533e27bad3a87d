import SiteFusion.Fusion.Rounds

namespace SiteFusion

/-- The part of an operation in a site. -/
inductive Role
  | function
  | caseId
  | caseStore
  | argument (index : Nat)
  | result
  | start
  | finish
deriving DecidableEq

namespace Role

def tags (r : Role) (callee : String) (ordinal : UInt64) : Tags :=
  match r with
  | function => Site.calleeTags ordinal SiteNote.function callee
  | caseId => (Site.calleeTags ordinal SiteNote.function callee).attach SiteNote.caseId (.str callee)
  | caseStore => Site.calleeTags ordinal SiteNote.caseId callee
  | argument i => Site.argumentTags ordinal callee i
  | result => Site.calleeTags ordinal SiteNote.result callee
  | start => Site.calleeTags ordinal SiteNote.start callee
  | finish => Site.calleeTags ordinal SiteNote.finish callee

end Role

namespace SiteNote

def names : List String := [function, start, finish, argument, result, caseId, site]

end SiteNote

def Tags.Foreign (t : Tags) : Prop := ∀ x ∈ t.list, x.name ∉ SiteNote.names

instance (t : Tags) : Decidable t.Foreign := inferInstanceAs (Decidable (∀ x ∈ t.list, _))

namespace Tags.Foreign

variable {t : Tags} {name : String}

theorem get?_eq_none (h : t.Foreign) (hn : name ∈ SiteNote.names) : t.get? name = none := by
  rw [Tags.get?, Option.map_eq_none_iff, List.find?_eq_none]
  intro x hx he
  rw [decide_eq_true_eq] at he
  subst he
  exact h x hx hn

end Tags.Foreign

namespace Role

variable {r : Role} {c : String} {n : UInt64}

theorem list_tags (r : Role) (c : String) (n : UInt64) :
    (r.tags c n).list = ⟨SiteNote.site, .word n⟩ :: match r with
      | function => [⟨SiteNote.function, .str c⟩]
      | caseId => [⟨SiteNote.function, .str c⟩, ⟨SiteNote.caseId, .str c⟩]
      | caseStore => [⟨SiteNote.caseId, .str c⟩]
      | argument i => [⟨SiteNote.function, .str c⟩, ⟨SiteNote.argument, .word i.toUInt64⟩]
      | result => [⟨SiteNote.result, .str c⟩]
      | start => [⟨SiteNote.start, .str c⟩]
      | finish => [⟨SiteNote.finish, .str c⟩] := by
  cases r <;> rfl

theorem get?_start (r : Role) (c : String) (n : UInt64) :
    (r.tags c n).get? SiteNote.start = if r = start then some (.str c) else none := by
  rw [Tags.get?, list_tags]
  cases r <;> rfl

end Role

end SiteFusion
