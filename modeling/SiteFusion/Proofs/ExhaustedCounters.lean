import SiteFusion.Transform.Spill

namespace SiteFusion

variable {α β : Type}

/-- A change is given up only because a counter stands at its last value. -/
def OnlyExhausts (x : Edit α) : Prop := ∀ a, x = .error a → ∃ c, a = .exhausted c

namespace OnlyExhausts

theorem ok (a : α) : OnlyExhausts (.ok a) := fun _ h => nomatch h

theorem exhausted (c : Counter) : OnlyExhausts (.error (.exhausted c) : Edit α) := by
  intro a h
  cases h
  exact ⟨c, rfl⟩

theorem bind {x : Edit α} {f : α → Edit β} (hx : OnlyExhausts x)
    (hf : ∀ a, x = .ok a → OnlyExhausts (f a)) : OnlyExhausts (x >>= f) := by
  cases x with
  | error a =>
    intro b h
    cases h
    exact hx a rfl
  | ok a => exact hf a rfl

end OnlyExhausts

theorem Counter.next_onlyExhausts (c : Counter) (n : UInt32) : OnlyExhausts (c.next n) := by
  unfold next
  split
  · exact .ok _
  · exact .exhausted c

namespace Function

theorem freshTyped_onlyExhausts (f : Function) (ty : Ty) : OnlyExhausts (f.freshTyped ty) :=
  .bind (.bind (Counter.next_onlyExhausts _ _) fun _ _ => .ok _) fun _ _ => .ok _

theorem op_onlyExhausts {κ : Type} (f : Function) (kind : κ) (tags : Tags) :
    OnlyExhausts (f.op kind tags) :=
  .bind (.bind (.bind (Counter.next_onlyExhausts _ _) fun _ _ => .ok _) fun _ _ => .ok _) fun _ _ => .ok _

end Function

namespace Spill

theorem createSlot_onlyExhausts (f : Function) (ty : Ty) (tags : Tags) :
    OnlyExhausts (createSlot f ty tags) :=
  .bind (f.freshTyped_onlyExhausts _) fun _ _ => .bind (Function.op_onlyExhausts _ _ _) fun _ _ => .ok _

theorem newLoad_onlyExhausts (f : Function) (slot : Reg) (ty : Ty) (tags : Tags) :
    OnlyExhausts (newLoad f slot ty tags) :=
  .bind (f.freshTyped_onlyExhausts _) fun _ _ => .bind (Function.op_onlyExhausts _ _ _) fun _ _ => .ok _

theorem reloadPhis_onlyExhausts (d : Definition) (slot : Reg) (b : BlockId)
    (l : List (Nat × BlockId)) (f : Function) : OnlyExhausts (reloadPhis d slot b l f) := by
  induction l generalizing f with
  | nil => exact .ok _
  | cons x l ih =>
    unfold reloadPhis
    split
    · exact .bind (newLoad_onlyExhausts _ _ _ _) fun _ _ => ih _
    · exact ih f

theorem reloadInstructions_onlyExhausts (d : Definition) (slot : Reg)
    (l : List (Operation Instruction)) (f : Function) :
    OnlyExhausts (reloadInstructions d slot l f) := by
  induction l generalizing f with
  | nil => exact .ok _
  | cons o l ih =>
    unfold reloadInstructions
    split
    · exact .bind (newLoad_onlyExhausts _ _ _ _) fun _ _ => .bind (ih _) fun _ _ => .ok _
    · exact .bind (ih f) fun _ _ => .ok _

theorem reloadTerminator_onlyExhausts (d : Definition) (slot : Reg) (t : Operation Terminator)
    (f : Function) : OnlyExhausts (reloadTerminator d slot t f) := by
  unfold reloadTerminator
  split
  · exact .bind (newLoad_onlyExhausts _ _ _ _) fun _ _ => .ok _
  · exact .ok _

theorem reloadBlock_onlyExhausts (d : Definition) (slot : Reg) (key : BlockId) (f : Function) :
    OnlyExhausts (reloadBlock d slot key f) := by
  unfold reloadBlock
  split
  · exact .ok _
  · refine .bind (reloadPhis_onlyExhausts _ _ _ _ _) fun g _ => ?_
    split
    · exact .ok _
    · split
      · exact .ok _
      · exact .bind (reloadInstructions_onlyExhausts _ _ _ _) fun _ _ =>
          .bind (reloadTerminator_onlyExhausts _ _ _ _) fun _ _ => .ok _

theorem reloadBlocks_onlyExhausts (d : Definition) (slot : Reg) (l : List BlockId) (f : Function) :
    OnlyExhausts (reloadBlocks d slot l f) := by
  induction l generalizing f with
  | nil => exact .ok _
  | cons k l ih => exact .bind (reloadBlock_onlyExhausts _ _ _ _) fun _ _ => ih _

theorem demoteValues_onlyExhausts (l : List Definition) (f : Function) :
    OnlyExhausts (demoteValues l f) := by
  induction l generalizing f with
  | nil => exact .ok _
  | cons d l ih =>
    exact .bind (.bind (createSlot_onlyExhausts _ _ _) fun _ _ =>
      .bind (reloadBlocks_onlyExhausts _ _ _ _) fun _ _ =>
        .bind (Function.op_onlyExhausts _ _ _) fun _ _ => .ok _) fun _ _ => ih _

theorem storeIncoming_onlyExhausts (slot : Reg) (tags : Tags) (l : List (BlockId × Operand))
    (seen : List BlockId) (f : Function) : OnlyExhausts (storeIncoming slot tags l seen f) := by
  induction l generalizing seen f with
  | nil => exact .ok _
  | cons x l ih =>
    unfold storeIncoming
    split
    · exact ih seen f
    · exact .bind (Function.op_onlyExhausts _ _ _) fun _ _ => ih _ _

theorem demotePhi_onlyExhausts (f : Function) (key : BlockId) (index : Nat) (p : Operation Phi) :
    OnlyExhausts (demotePhi f key index p) :=
  .bind (createSlot_onlyExhausts _ _ _) fun _ _ => .bind (storeIncoming_onlyExhausts _ _ _ _ _)
    fun _ _ => .bind (Function.op_onlyExhausts _ _ _) fun _ _ => .ok _

theorem demotePhis_onlyExhausts (l : List (BlockId × OpId)) (f : Function) (n : Nat) :
    OnlyExhausts (demotePhis l f n) := by
  induction l generalizing f n with
  | nil => exact .ok _
  | cons x l ih =>
    unfold demotePhis
    split
    · exact ih f n
    · split
      · exact ih f n
      · split
        · exact ih f n
        · exact .bind (demotePhi_onlyExhausts _ _ _ _) fun _ _ => ih _ _

theorem demote_onlyExhausts (f : Function) : OnlyExhausts (demote f) := by
  unfold demote
  split
  · exact .ok _
  · exact .bind (demoteValues_onlyExhausts _ _) fun _ _ =>
      .bind (demotePhis_onlyExhausts _ _ _) fun _ _ => .ok _

end Spill

end SiteFusion
