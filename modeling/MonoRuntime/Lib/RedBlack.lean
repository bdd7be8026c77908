/-
Module: MonoRuntime.Lib.RedBlack
Purpose: Red-black trees and the bottom-up repair after an insertion. A place in a tree is the list of
  frames above it, the innermost first, so that the repair goes up by recursion on the frames: it
  recolours while the uncle is red, and rotates at most once.
Trusted boundary: none
Main exports: Colour
-/
import Mathlib.Data.List.Basic

namespace MonoRuntime.RedBlack

open List

variable {α : Type*}

/-- The colour of a node. -/
inductive Colour where
  | red
  | black
deriving DecidableEq, Repr

/-- Binary trees with coloured nodes. -/
inductive ColourTree (α : Type*) where
  | nil
  | node (colour : Colour) (left : ColourTree α) (value : α) (right : ColourTree α)

/-- The colour at the root; the empty tree is black. -/
def ColourTree.rootColour : ColourTree α → Colour
  | .nil => .black
  | .node colour _ _ _ => colour

/-- The value at the root. -/
def ColourTree.root : ColourTree α → Option α
  | .nil => none
  | .node _ _ value _ => some value

/-- The same tree with a root of the given colour. -/
def ColourTree.paint (colour : Colour) : ColourTree α → ColourTree α
  | .nil => .nil
  | .node _ left value right => .node colour left value right

/-- The values from left to right. -/
def ColourTree.inorder : ColourTree α → List α
  | .nil => []
  | .node _ left value right => left.inorder ++ value :: right.inorder

/-- No red node has a red child, and every path to a leaf has `n` black nodes. -/
inductive IsBalanced : ColourTree α → Nat → Prop where
  | nil : IsBalanced .nil 0
  | red {left right : ColourTree α} {value : α} {n : Nat} (balancedLeft : IsBalanced left n)
      (balancedRight : IsBalanced right n) (blackLeft : left.rootColour = .black)
      (blackRight : right.rootColour = .black) : IsBalanced (.node .red left value right) n
  | black {left right : ColourTree α} {value : α} {n : Nat} (balancedLeft : IsBalanced left n)
      (balancedRight : IsBalanced right n) : IsBalanced (.node .black left value right) (n + 1)

/-! ### Places -/

/-- Which child of a frame the place is below. -/
inductive Side where
  | left
  | right
deriving DecidableEq, Repr

/-- The other side. -/
def Side.flip : Side → Side
  | .left => .right
  | .right => .left

theorem Side.flip_ne (side : Side) : side.flip ≠ side := by
  cases side <;> decide

theorem Side.eq_or_eq_flip (side other : Side) : other = side ∨ other = side.flip := by
  cases side <;> cases other <;> decide

/-- A node above a place, with its other child. -/
structure Frame (α : Type*) where
  side : Side
  colour : Colour
  value : α
  sibling : ColourTree α

/-- Put a tree below a frame. -/
def Frame.fill (f : Frame α) (t : ColourTree α) : ColourTree α :=
  match f.side with
  | .left => .node f.colour t f.value f.sibling
  | .right => .node f.colour f.sibling f.value t

/-- Put a tree into a place. -/
def plug : List (Frame α) → ColourTree α → ColourTree α
  | [], t => t
  | f :: above, t => plug above (f.fill t)

/-- The values around a place. -/
def frameValues (above : List (Frame α)) : List α :=
  above.flatMap fun f => f.value :: f.sibling.inorder

theorem frameValues_cons (f : Frame α) (above : List (Frame α)) :
    frameValues (f :: above) = f.value :: f.sibling.inorder ++ frameValues above :=
  flatMap_cons

/-- The values left of a place. -/
def before : List (Frame α) → List α
  | [] => []
  | f :: above =>
      match f.side with
      | .left => before above
      | .right => before above ++ f.sibling.inorder ++ [f.value]

/-- The values right of a place. -/
def after : List (Frame α) → List α
  | [] => []
  | f :: above =>
      match f.side with
      | .left => f.value :: f.sibling.inorder ++ after above
      | .right => after above

theorem inorder_plug : ∀ (above : List (Frame α)) (t : ColourTree α),
    (plug above t).inorder = before above ++ t.inorder ++ after above
  | [], t => by simp [plug, before, after]
  | ⟨.left, colour, value, sibling⟩ :: above, t => by
      rw [plug, inorder_plug above]
      simp [Frame.fill, ColourTree.inorder, before, after]
  | ⟨.right, colour, value, sibling⟩ :: above, t => by
      rw [plug, inorder_plug above]
      simp [Frame.fill, ColourTree.inorder, before, after]

theorem Frame.inorder_fill_perm (f : Frame α) (t : ColourTree α) :
    (f.fill t).inorder.Perm (f.value :: f.sibling.inorder ++ t.inorder) := by
  unfold Frame.fill
  split
  · exact perm_append_comm
  · exact perm_middle

theorem inorder_plug_perm : ∀ (above : List (Frame α)) (t : ColourTree α),
    (plug above t).inorder.Perm (frameValues above ++ t.inorder)
  | [], t => List.Perm.refl _
  | f :: above, t => by
      refine (inorder_plug_perm above (f.fill t)).trans ?_
      rw [frameValues_cons]
      refine (List.Perm.append_left _ (f.inorder_fill_perm t)).trans ?_
      rw [← append_assoc]
      exact List.Perm.append_right _ perm_append_comm

theorem length_le_frameValues (above : List (Frame α)) : above.length ≤ (frameValues above).length := by
  induction above with
  | nil => exact Nat.le_refl _
  | cons f above ih =>
    rw [frameValues_cons, length_append, length_cons, length_cons]
    omega

/-- The colour of the node right above a place; the outside counts as black. -/
def colourAbove : List (Frame α) → Colour
  | [] => .black
  | f :: _ => f.colour

/-- The frames of a balanced tree with a black root, around a place for a tree with `n` black nodes on
every path. -/
inductive FramesBalanced : List (Frame α) → Nat → Prop where
  | top {n : Nat} : FramesBalanced [] n
  | red {f : Frame α} {above : List (Frame α)} {n : Nat} (isRed : f.colour = .red)
      (sibling : IsBalanced f.sibling n) (blackSibling : f.sibling.rootColour = .black)
      (nonempty : above ≠ []) (blackAbove : colourAbove above = .black)
      (rest : FramesBalanced above n) : FramesBalanced (f :: above) n
  | black {f : Frame α} {above : List (Frame α)} {n : Nat} (isBlack : f.colour = .black)
      (sibling : IsBalanced f.sibling n) (rest : FramesBalanced above (n + 1)) :
      FramesBalanced (f :: above) n

theorem Frame.fill_rootColour (f : Frame α) (t : ColourTree α) : (f.fill t).rootColour = f.colour := by
  unfold Frame.fill
  split <;> rfl

theorem FramesBalanced.plug {above : List (Frame α)} {n : Nat} (frames : FramesBalanced above n) :
    ∀ {t : ColourTree α}, IsBalanced t n → (t.rootColour = .black ∨ colourAbove above = .black) →
      (above = [] → t.rootColour = .black) →
        (∃ m, IsBalanced (plug above t) m) ∧ (RedBlack.plug above t).rootColour = .black := by
  induction frames with
  | top =>
    intro t balanced _ rootBlack
    exact ⟨⟨_, balanced⟩, rootBlack rfl⟩
  | @red f above n isRed sibling blackSibling nonempty blackAbove _ ih =>
    intro t balanced colours _
    have blackT : t.rootColour = .black := by
      rcases colours with black | black
      · exact black
      · rw [colourAbove, isRed] at black
        cases black
    refine ih ?_ (Or.inr blackAbove) (fun isTop => absurd isTop nonempty)
    unfold Frame.fill
    rw [isRed]
    split
    · exact IsBalanced.red balanced sibling blackT blackSibling
    · exact IsBalanced.red sibling balanced blackSibling blackT
  | @black f above n isBlack sibling _ ih =>
    intro t balanced _ _
    have blackFill : (f.fill t).rootColour = .black := by rw [Frame.fill_rootColour, isBlack]
    refine ih ?_ (Or.inl blackFill) (fun _ => blackFill)
    unfold Frame.fill
    rw [isBlack]
    split
    · exact IsBalanced.black balanced sibling
    · exact IsBalanced.black sibling balanced

theorem framesBalanced_of_plug : ∀ (above : List (Frame α)) (t : ColourTree α) {m : Nat},
    IsBalanced (plug above t) m → (plug above t).rootColour = .black → ∃ n, IsBalanced t n ∧ FramesBalanced above n ∧
        (t.rootColour = .red → above ≠ [] ∧ colourAbove above = .black)
  | [], t, m, balanced, rootBlack => by
      refine ⟨m, balanced, FramesBalanced.top, fun isRed => ?_⟩
      rw [plug, isRed] at rootBlack
      cases rootBlack
  | f :: above, t, m, balanced, rootBlack => by
      obtain ⟨n, filled, frames, redAbove⟩ := framesBalanced_of_plug above (f.fill t) balanced rootBlack
      rw [Frame.fill_rootColour] at redAbove
      obtain ⟨side, colour, value, sibling⟩ := f
      cases colour with
      | red =>
        obtain ⟨nonempty, blackAbove⟩ := redAbove rfl
        cases side with
        | left =>
          cases filled with
          | red left right blackLeft blackRight =>
            refine ⟨n, left, FramesBalanced.red rfl right blackRight nonempty blackAbove frames,
              fun isRed => ?_⟩
            rw [blackLeft] at isRed
            cases isRed
        | right =>
          cases filled with
          | red left right blackLeft blackRight =>
            refine ⟨n, right, FramesBalanced.red rfl left blackLeft nonempty blackAbove frames,
              fun isRed => ?_⟩
            rw [blackRight] at isRed
            cases isRed
      | black =>
        cases side with
        | left =>
          cases filled with
          | black left right =>
            exact ⟨_, left, FramesBalanced.black rfl right frames,
              fun _ => ⟨cons_ne_nil _ _, rfl⟩⟩
        | right =>
          cases filled with
          | black left right =>
            exact ⟨_, right, FramesBalanced.black rfl left frames,
              fun _ => ⟨cons_ne_nil _ _, rfl⟩⟩

/-! ### Repair -/

/-- Rotate the red tree `node left value right` below the red frame `f` below the black frame `g`, so that
the three nodes become a black one with two red children. -/
def rotated (f g : Frame α) (left : ColourTree α) (value : α) (right : ColourTree α) : ColourTree α :=
  match g.side, f.side with
  | .left, .left =>
      .node .black (.node .red left value right) f.value (.node .red f.sibling g.value g.sibling)
  | .left, .right =>
      .node .black (.node .red f.sibling f.value left) value (.node .red right g.value g.sibling)
  | .right, .left =>
      .node .black (.node .red g.sibling g.value left) value (.node .red right f.value f.sibling)
  | .right, .right =>
      .node .black (.node .red g.sibling g.value f.sibling) f.value (.node .red left value right)

/-- Repair a tree whose only defect may be the red root of the given tree below a red frame. -/
def fixUp : List (Frame α) → ColourTree α → Option (ColourTree α)
  | [], t => some (t.paint .black)
  | f :: above, t =>
      match f.colour, above, t with
      | .black, above, t => some (plug above (f.fill t))
      | .red, g :: above, t =>
          if g.sibling.rootColour = .red then
            fixUp above
              (Frame.fill { g with colour := .red, sibling := g.sibling.paint .black }
                (Frame.fill { f with colour := .black } t))
          else
            match t with
            | .nil => none
            | .node _ left value right => some (plug above (rotated f g left value right))
      | .red, [], _ => none

theorem inorder_rotated (f g : Frame α) (left : ColourTree α) (value : α) (right : ColourTree α) (colour : Colour) :
    (rotated f g left value right).inorder = (g.fill (f.fill (.node colour left value right))).inorder := by
  obtain ⟨sideF, _, _, _⟩ := f
  obtain ⟨sideG, _, _, _⟩ := g
  cases sideF <;> cases sideG <;> simp [rotated, Frame.fill, ColourTree.inorder]

theorem balanced_rotated {f g : Frame α} {left right : ColourTree α} (value : α) {n : Nat}
    (siblingF : IsBalanced f.sibling n) (siblingG : IsBalanced g.sibling n)
    (balancedLeft : IsBalanced left n) (balancedRight : IsBalanced right n)
    (blackF : f.sibling.rootColour = .black) (blackG : g.sibling.rootColour = .black)
    (blackLeft : left.rootColour = .black) (blackRight : right.rootColour = .black) :
    IsBalanced (rotated f g left value right) (n + 1) ∧ (rotated f g left value right).rootColour = .black := by
  unfold rotated
  split
  · exact ⟨.black (.red balancedLeft balancedRight blackLeft blackRight)
      (.red siblingF siblingG blackF blackG), rfl⟩
  · exact ⟨.black (.red siblingF balancedLeft blackF blackLeft)
      (.red balancedRight siblingG blackRight blackG), rfl⟩
  · exact ⟨.black (.red siblingG balancedLeft blackG blackLeft)
      (.red balancedRight siblingF blackRight blackF), rfl⟩
  · exact ⟨.black (.red siblingG siblingF blackG blackF)
      (.red balancedLeft balancedRight blackLeft blackRight), rfl⟩

theorem balanced_paint {t : ColourTree α} {n : Nat} (balanced : IsBalanced t n)
    (isRed : t.rootColour = .red) : IsBalanced (t.paint .black) (n + 1) := by
  cases balanced with
  | nil => cases isRed
  | red left right _ _ => exact IsBalanced.black left right
  | black _ _ => cases isRed

theorem paint_rootColour {t : ColourTree α} (colour : Colour) (isRed : t.rootColour = .red) :
    (t.paint colour).rootColour = colour := by
  cases t with
  | nil => cases isRed
  | node _ _ _ _ => rfl

theorem inorder_paint (t : ColourTree α) (colour : Colour) : (t.paint colour).inorder = t.inorder := by
  cases t <;> rfl

/-- The repair succeeds, keeps the order and leaves a balanced tree with a black root. -/
theorem fixUp_balanced : ∀ (above : List (Frame α)) (value : α) {left right : ColourTree α} {n : Nat},
    FramesBalanced above n → IsBalanced left n → IsBalanced right n → left.rootColour = .black →
      right.rootColour = .black → ∃ t m, fixUp above (.node .red left value right) = some t ∧ IsBalanced t m ∧
          t.rootColour = .black ∧ t.inorder = (plug above (.node .red left value right)).inorder
  | [], value, left, right, n, _, balancedLeft, balancedRight, _, _ =>
    ⟨_, _, rfl, IsBalanced.black balancedLeft balancedRight, rfl, rfl⟩
  | f :: above, value, left, right, n, frames, balancedLeft, balancedRight, blackLeft, blackRight => by
      cases frames with
      | black isBlack sibling rest =>
        have child : IsBalanced (.node .red left value right) _ :=
          IsBalanced.red balancedLeft balancedRight blackLeft blackRight
        have whole := (FramesBalanced.black isBlack sibling rest).plug child (Or.inr isBlack)
          (fun isTop => absurd isTop (cons_ne_nil _ _))
        obtain ⟨⟨m, balanced⟩, rootBlack⟩ := whole
        refine ⟨_, m, ?_, balanced, rootBlack, rfl⟩
        simp only [fixUp, isBlack]
        rfl
      | red isRed siblingF blackF nonempty blackAbove rest =>
        cases rest with
        | top => exact absurd rfl nonempty
        | red isRedG _ _ _ _ _ =>
          rw [colourAbove, isRedG] at blackAbove
          cases blackAbove
        | @black g above n isBlackG siblingG rest =>
          by_cases uncle : g.sibling.rootColour = .red
          · -- Recolour, and go on at the grandparent.
            have parent : IsBalanced (Frame.fill { f with colour := .black }
                (.node .red left value right)) (n + 1) := by
              have child : IsBalanced (.node .red left value right) _ :=
                IsBalanced.red balancedLeft balancedRight blackLeft blackRight
              unfold Frame.fill
              split
              · exact IsBalanced.black child siblingF
              · exact IsBalanced.black siblingF child
            have parentBlack : (Frame.fill { f with colour := .black }
                (.node .red left value right)).rootColour = .black := Frame.fill_rootColour _ _
            have uncleBalanced := balanced_paint siblingG uncle
            have uncleBlack := paint_rootColour .black uncle
            have order : ∀ t : ColourTree α, (RedBlack.plug above t).inorder
                = before above ++ t.inorder ++ after above := inorder_plug above
            cases side : g.side with
            | left =>
              obtain ⟨t, m, run, balanced, rootBlack, inorder⟩ :=
                fixUp_balanced above g.value rest parent uncleBalanced parentBlack
                  uncleBlack
              refine ⟨t, m, ?_, balanced, rootBlack, ?_⟩
              · simp only [fixUp, isRed, if_pos uncle]
                simpa only [Frame.fill, side] using run
              · rw [inorder, RedBlack.plug, RedBlack.plug, order, order]
                simp only [ColourTree.inorder, Frame.fill, side, inorder_paint]
                cases f.side <;> simp [ColourTree.inorder]
            | right =>
              obtain ⟨t, m, run, balanced, rootBlack, inorder⟩ :=
                fixUp_balanced above g.value rest uncleBalanced parent uncleBlack
                  parentBlack
              refine ⟨t, m, ?_, balanced, rootBlack, ?_⟩
              · simp only [fixUp, isRed, if_pos uncle]
                simpa only [Frame.fill, side] using run
              · rw [inorder, RedBlack.plug, RedBlack.plug, order, order]
                simp only [ColourTree.inorder, Frame.fill, side, inorder_paint]
                cases f.side <;> simp [ColourTree.inorder]
          · have uncleBlack : g.sibling.rootColour = .black := by
              cases colour : g.sibling.rootColour with
              | red => exact absurd colour uncle
              | black => rfl
            obtain ⟨balanced, rootBlack⟩ := balanced_rotated value siblingF siblingG
              balancedLeft balancedRight blackF uncleBlack blackLeft blackRight
            obtain ⟨⟨m, whole⟩, wholeBlack⟩ := rest.plug balanced (Or.inl rootBlack)
              (fun _ => rootBlack)
            refine ⟨_, m, ?_, whole, wholeBlack, ?_⟩
            · simp only [fixUp, isRed, if_neg uncle]
            · rw [RedBlack.plug, RedBlack.plug, inorder_plug, inorder_plug,
                inorder_rotated f g left value right .red]

end MonoRuntime.RedBlack
