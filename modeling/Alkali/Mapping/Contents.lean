import Alkali.Mapping.Explorer

/-!
# What splits do to operations

A split deals the operations of a function out to two functions and adds three: the
event between the stages, its return, and a terminator.
-/

namespace Alkali

open SplitFunction List

/-- The operations that a split adds. -/
def createdOps (name : String) (blk : Block) (sinkOps : List OpId) : List Operation :=
  createGenerate name blk sinkOps ++ [.plain ⟨blk.freshId + 2, .terminate, [], []⟩]

/-- A split keeps every operation once. -/
theorem functionSplitter_operations {name : String} {blk : Block} {sinkOps : List OpId}
    {bodies : FuncOp × FuncOp} (h : functionSplitter name blk sinkOps = some bodies) :
    (bodies.1.operations ++ bodies.2.operations).Perm
      (blk.operations ++ createdOps name blk sinkOps) := by
  rw [functionSplitter] at h
  split at h
  case isFalse => cases h
  cases h
  have hops : (sourceOps blk sinkOps ++ sinkOpsOf blk sinkOps).Perm blk.ops := by
    have := filter_append_perm (inSink sinkOps) blk.ops
    exact perm_append_comm.trans this
  rw [perm_iff_count] at hops ⊢
  intro o
  have hcnt := hops o
  -- the terminator stays on its side, and the other side gets a new one
  by_cases hterm : blk.termId ∈ sinkOps <;>
  · simp only [FuncOp.operations, Block.operations, sourceFunc, sinkFunc, createdOps, termId, hterm,
      flatMap_singleton, count_append, Terminator.toOperation] at hcnt ⊢
    simp
    omega

/-- The block of a function with a body has its operations. -/
theorem FuncOp.flatBlock_operations {f : FuncOp} (h : f.blocks ≠ []) :
    f.flatBlock.operations = f.operations := by
  obtain ⟨blocks, blk, hblocks⟩ := eq_nil_or_concat' f.blocks |>.resolve_left h
  simp [Block.operations, flatBlock, operations, hblocks, ← append_assoc]

/-- A handler is split again and again, with the operations that this adds. -/
inductive SplitsTo (f₀ : ModuleFunc) : List ModuleFunc → List Operation → Prop
  | start : SplitsTo f₀ [f₀] []
  | split {f created sinkOps bodies sourceId sinkId} (pre post parts : List ModuleFunc)
      (before : SplitsTo f₀ (pre ++ f :: post) created)
      (split : functionSplitter f.func.name f.func.flatBlock sinkOps = some bodies)
      (stages : parts.Perm [(f.splitInto sourceId sinkId bodies.1 bodies.2).1,
        (f.splitInto sourceId sinkId bodies.1 bodies.2).2]) :
      SplitsTo f₀ (pre ++ parts ++ post)
        (created ++ createdOps f.func.name f.func.flatBlock sinkOps)

namespace SplitsTo

variable {f₀ : ModuleFunc} {fs : List ModuleFunc} {created : List Operation}

section

variable (h : SplitsTo f₀ fs created)
include h

theorem ne_nil : fs ≠ [] := by
  induction h with
  | start => exact cons_ne_nil _ _
  | split pre post parts _ _ hparts _ =>
    intro hnil
    simp_all

/-- What the two stages of every split have holds of all stages. -/
theorem forall_mem {P : ModuleFunc → Prop} (h₀ : P f₀)
    (hsplit : ∀ f sinkOps bodies sourceId sinkId, P f →
      functionSplitter f.func.name f.func.flatBlock sinkOps = some bodies →
      P (f.splitInto sourceId sinkId bodies.1 bodies.2).1 ∧
        P (f.splitInto sourceId sinkId bodies.1 bodies.2).2) : ∀ g ∈ fs, P g := by
  induction h with
  | start => simpa using h₀
  | split pre post parts _ hbodies hparts ih =>
    obtain ⟨hsrc, hsink⟩ := hsplit _ _ _ _ _ (ih _ (by simp)) hbodies
    intro g hg
    rcases mem_append.mp hg with hg | hg
    · rcases mem_append.mp hg with hg | hg
      · exact ih g (mem_append_left _ hg)
      · rcases mem_pair.mp (hparts.mem_iff.mp hg) with rfl | rfl
        · exact hsrc
        · exact hsink
    · exact ih g (mem_append_right _ (mem_cons_of_mem _ hg))

theorem isStage (h₀ : f₀.isStage) : ∀ g ∈ fs, g.isStage :=
  h.forall_mem h₀ fun _ _ _ _ _ hf _ => ⟨hf, rfl⟩

theorem blocks_ne_nil (h₀ : f₀.func.blocks ≠ []) : ∀ g ∈ fs, g.func.blocks ≠ [] := by
  refine h.forall_mem h₀ fun f sinkOps bodies _ _ _ hbodies => ?_
  rw [functionSplitter] at hbodies
  split at hbodies
  · cases hbodies
    exact ⟨cons_ne_nil _ _, cons_ne_nil _ _⟩
  · cases hbodies

/-- The stages have the operations of the handler, each once, and those that the splits
have added. -/
theorem operations (h₀ : f₀.func.blocks ≠ []) :
    (fs.flatMap fun g => g.func.operations).Perm (f₀.func.operations ++ created) := by
  induction h with
  | start => simp
  | @split f created sinkOps bodies sourceId sinkId pre post parts hbefore hbodies hparts ih =>
    have hops := functionSplitter_operations hbodies
    rw [FuncOp.flatBlock_operations (hbefore.blocks_ne_nil h₀ f (by simp))] at hops
    have hstages := hparts.flatMap_right fun g => g.func.operations
    rw [perm_iff_count] at hops hstages ih ⊢
    intro o
    have hopsCount := hops o
    have hstagesCount := hstages o
    have hcnt := ih o
    simp only [flatMap_append, flatMap_cons, flatMap_nil, count_append,
      append_nil, ModuleFunc.splitInto] at hopsCount hstagesCount hcnt ⊢
    omega

end

end SplitsTo

end Alkali
