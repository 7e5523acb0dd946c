import Formula.Proofs.Step

/-! Reductions stay inside the innermost bracket, also on stacks that do not agree with one another.
An application takes the operator on top and operands above the floor, so that nothing outside the
bracket moves; what one application keeps, a chain of them keeps, and so do those in front of one
that breaks. -/
namespace Formula

namespace Stacked

/-- The operators above the innermost marker. -/
def inner (ops : List Stacked) : List Stacked := ops.takeWhile fun o => o != .marker

/-- The innermost marker and all that lies below it. -/
def outer (ops : List Stacked) : List Stacked := ops.dropWhile fun o => o != .marker

theorem inner_append_outer (ops : List Stacked) : inner ops ++ outer ops = ops :=
  List.takeWhile_append_dropWhile

@[simp] theorem outer_operator (op : Kind) (s : Span) (ops : List Stacked) :
    outer (.operator op s :: ops) = outer ops := by
  simp [outer]

@[simp] theorem outer_marker (ops : List Stacked) : outer (.marker :: ops) = .marker :: ops := by
  simp [outer]

end Stacked

namespace Yard
open Stacked

/-- The stacks as an operation on `y` leaves them, also when it fails. -/
def after (y : Yard) : Except Halted Yard → Yard
  | .ok z => z
  | .error d => { y with operators := d.operators, values := d.values }

/-- All that lies outside the innermost bracket of `y` is in `z` as it was: the values below the
floor, counted from the bottom, and the operators from the innermost marker on down. -/
structure Shields (y z : Yard) : Prop where
  frames : z.frames = y.frames
  expectsOperand : z.expectsOperand = y.expectsOperand
  operators : outer z.operators = outer y.operators
  values : ∀ i < y.floor, z.values.reverse[i]? = y.values.reverse[i]?

/-- The operators down to one that breaks are applied, and of that one and the operands that it has
taken nothing is left. -/
def BreaksOff (env : Environment) (y : Yard) (d : Halted) : Prop :=
  ∃ op s vs, Relation.ReflTransGen (Applies env y.floor) (y.operators, y.values)
      (.operator op s :: d.operators, vs) ∧
    Breaks env y.floor op s vs d.fault d.values

variable {env : Environment} {floor : Nat} {op : Kind} {s : Span} {vs ws : List Value}
  {a b c : List Stacked × List Value} {y z : Yard} {d : Halted}

/-- The values that lie on a stack do not matter for those at its bottom. -/
theorem getElem?_reverse_append {i : Nat} (us us' : List Value) (h : i < ws.length) :
    (us ++ ws).reverse[i]? = (us' ++ ws).reverse[i]? := by
  have hi : i < ws.reverse.length := by rwa [List.length_reverse]
  rw [List.reverse_append, List.reverse_append, List.getElem?_append_left hi,
    List.getElem?_append_left hi]

/-- An operator changes no value below the floor. -/
theorem Performs.below (h : Performs env floor op vs ws) {i : Nat} (hi : i < floor) :
    ws.reverse[i]? = vs.reverse[i]? := by
  cases h with
  | @one v r vs _ hfloor => exact getElem?_reverse_append [r] [v] (Nat.lt_of_lt_of_le hi hfloor)
  | @two u v r vs _ hfloor =>
    exact getElem?_reverse_append [r] [v, u] (Nat.lt_of_lt_of_le hi hfloor)

/-- Nor does one that breaks. -/
theorem Breaks.below {e : Fault} (h : Breaks env floor op s vs e ws) {i : Nat} (hi : i < floor) :
    ws.reverse[i]? = vs.reverse[i]? := by
  cases h with
  | noOperand => rfl
  | @noLeftOperand v vs _ h => exact getElem?_reverse_append [] [v] (h ▸ hi)
  | @one v vs e _ hfloor => exact getElem?_reverse_append [] [v] (Nat.lt_of_lt_of_le hi hfloor)
  | @two u v vs e _ hfloor => exact getElem?_reverse_append [] [v, u] (Nat.lt_of_lt_of_le hi hfloor)

/-- The second pair of stacks has what lies outside the innermost bracket of the first. -/
def Keeps (floor : Nat) (a b : List Stacked × List Value) : Prop :=
  outer b.1 = outer a.1 ∧ ∀ i < floor, b.2.reverse[i]? = a.2.reverse[i]?

theorem Keeps.trans (hab : Keeps floor a b) (hbc : Keeps floor b c) : Keeps floor a c :=
  ⟨hbc.1.trans hab.1, fun i hi => (hbc.2 i hi).trans (hab.2 i hi)⟩

theorem Applies.keeps (h : Applies env floor a b) : Keeps floor a b := by
  cases h with
  | apply h =>
    exact ⟨(outer_operator _ _ _).symm, fun i hi => (performs_of_applyOperator h).below hi⟩

/-- What every application keeps, all of them keep. -/
theorem keeps_of_applies (h : Relation.ReflTransGen (Applies env floor) a b) : Keeps floor a b := by
  induction h with
  | refl => exact ⟨rfl, fun i _ => rfl⟩
  | tail _ hstep ih => exact ih.trans hstep.keeps

theorem BreaksOff.keeps (h : y.BreaksOff env d) :
    Keeps y.floor (y.operators, y.values) (d.operators, d.values) := by
  obtain ⟨op, s, vs, happlies, hbreaks⟩ := h
  have hlast : Keeps y.floor (.operator op s :: d.operators, vs) (d.operators, d.values) :=
    ⟨(outer_operator _ _ _).symm, fun i hi => hbreaks.below hi⟩
  exact (keeps_of_applies happlies).trans hlast

theorem Keeps.shields {ops : List Stacked}
    (h : Keeps y.floor (y.operators, y.values) (ops, vs)) :
    y.Shields { y with operators := ops, values := vs } :=
  ⟨rfl, rfl, h.1, h.2⟩

/-- Where nothing is left above the marker, the operators are those from there on down. -/
theorem Reduced.outer_eq (h : z.Reduced) : outer z.operators = z.operators := by
  cases hops : z.operators with
  | nil => rfl
  | cons o ops =>
    cases o with
    | marker => exact outer_marker ops
    | operator op s => exact absurd hops (h op s ops)

theorem breaksOff_of_reduce (h : y.reduce env = .error d) : y.BreaksOff env d :=
  breaks_of_applyWhile (map_eq_error.mp h)

theorem breaksOff_of_pushBinary (h : y.pushBinary env op s = .error d) : y.BreaksOff env d :=
  breaks_of_applyWhile (map_eq_error.mp h)

theorem applies_of_reduce (h : y.reduce env = .ok z) :
    Relation.ReflTransGen (Applies env y.floor) (y.operators, y.values)
      (z.operators, z.values) := by
  obtain ⟨⟨ops, vs⟩, hloop, rfl⟩ := map_eq_ok.mp h
  exact (applies_of_applyWhile hloop).1

theorem shields_reduce (env : Environment) (y : Yard) : y.Shields (y.after (y.reduce env)) := by
  cases hr : y.reduce env with
  | ok z =>
    obtain ⟨⟨ops, vs⟩, hloop, rfl⟩ := map_eq_ok.mp hr
    exact (keeps_of_applies (applies_of_applyWhile hloop).1).shields
  | error d => exact (breaksOff_of_reduce hr).keeps.shields

theorem shields_pushBinary (env : Environment) (op : Kind) (s : Span) (y : Yard) :
    y.Shields (y.after (y.pushBinary env op s)) := by
  cases hr : y.pushBinary env op s with
  | ok z =>
    obtain ⟨⟨ops, vs⟩, hloop, rfl⟩ := map_eq_ok.mp hr
    obtain ⟨houter, hbelow⟩ := keeps_of_applies (applies_of_applyWhile hloop).1
    exact ⟨rfl, rfl, (outer_operator op s ops).trans houter, hbelow⟩
  | error d => exact (breaksOff_of_pushBinary hr).keeps.shields

/-- A reduction applies just the operators above the innermost marker, and there is one value less
for each infix operator among them. -/
theorem reduce_inner (h : y.reduce env = .ok z) :
    z.operators = outer y.operators ∧
      y.values.length = z.values.length + infixCount (inner y.operators) := by
  obtain ⟨seg, vs, hseg, -, hlength, hz, hreduced⟩ := reduce_eq_ok h
  have houter : outer z.operators = outer y.operators :=
    (keeps_of_applies (applies_of_reduce h)).1
  rw [hreduced.outer_eq] at houter
  have hinner : inner y.operators = seg := by
    rw [← inner_append_outer y.operators, houter] at hseg
    exact List.append_cancel_right hseg
  refine ⟨houter, ?_⟩
  rw [hinner, hz]
  exact hlength

/-- On any stacks, a reduction and the operators that an infix operator applies first leave all that
lies outside the innermost bracket as it was, also when they fail. A reduction that succeeds has
applied the operators above the innermost marker, and an infix operator that goes on the stack has
applied some of them; where either fails, an operator has broken, and it is gone with the operands
that it had taken, and nothing else but what was applied before. -/
theorem reductions_shielded (env : Environment) (y : Yard) (op : Kind) (s : Span) :
    (y.Shields (y.after (y.reduce env)) ∧ y.Shields (y.after (y.pushBinary env op s))) ∧
    (∀ z, y.reduce env = .ok z →
      Relation.ReflTransGen (Applies env y.floor) (y.operators, y.values)
        (z.operators, z.values) ∧
      z.operators = outer y.operators ∧
      y.values.length = z.values.length + infixCount (inner y.operators)) ∧
    (∀ z, y.pushBinary env op s = .ok z → ∃ ops, z.operators = .operator op s :: ops ∧
      Relation.ReflTransGen (Applies env y.floor) (y.operators, y.values) (ops, z.values)) ∧
    (∀ d, y.reduce env = .error d → y.BreaksOff env d) ∧
    ∀ d, y.pushBinary env op s = .error d → y.BreaksOff env d := by
  refine ⟨⟨shields_reduce env y, shields_pushBinary env op s y⟩, ?_, ?_, ?_, ?_⟩
  · intro z hz
    exact ⟨applies_of_reduce hz, reduce_inner hz⟩
  · intro z hz
    obtain ⟨⟨ops, vs⟩, hloop, rfl⟩ := map_eq_ok.mp hz
    exact ⟨ops, rfl, (applies_of_applyWhile hloop).1⟩
  · intro d hd
    exact breaksOff_of_reduce hd
  · intro d hd
    exact breaksOff_of_pushBinary hd

/-- Two operators above a marker, on stacks that do not fit together. -/
def uneven (base : Nat) : Yard where
  operators := [.operator .not default, .operator .and default, .marker, .operator .plus default]
  values := [.bool true, .bool true, .null]
  frames := [⟨.group, base, default⟩, ⟨.group, 9, default⟩]
  expectsOperand := true

/-- Above one value both operators have their operands; above two, the left operand of the second is
missing when its right one is gone. -/
theorem reductions_shielded_uneven :
    ((uneven 1).reduce .empty = .ok { uneven 1 with
        operators := [.marker, .operator .plus default], values := [.bool false, .null] } ∧
      (uneven 1).values.length = 2 + infixCount (inner (uneven 1).operators)) ∧
    ((uneven 1).pushBinary .empty .or default = .ok { uneven 1 with
        operators := [.operator .or default, .marker, .operator .plus default]
        values := [.bool false, .null] } ∧
      Relation.ReflTransGen (Applies .empty 1) ((uneven 1).operators, (uneven 1).values)
        ([.marker, .operator .plus default], [.bool false, .null])) ∧
    ((uneven 2).reduce .empty = .error
        ⟨.unbalanced 0 default, [.marker, .operator .plus default], [.bool true, .null]⟩ ∧
      (uneven 2).BreaksOff .empty
        ⟨.unbalanced 0 default, [.marker, .operator .plus default], [.bool true, .null]⟩ ∧
      (uneven 2).Shields { uneven 2 with
        operators := [.marker, .operator .plus default], values := [.bool true, .null] }) ∧
    ((uneven 2).pushBinary .empty .or default = .error
        ⟨.unbalanced 0 default, [.marker, .operator .plus default], [.bool true, .null]⟩ ∧
      (uneven 2).BreaksOff .empty
        ⟨.unbalanced 0 default, [.marker, .operator .plus default], [.bool true, .null]⟩) := by
  obtain ⟨-, hreduced, hpushed, -, -⟩ := reductions_shielded .empty (uneven 1) .or default
  obtain ⟨⟨hshields, -⟩, -, -, hbroken, hbroken'⟩ :=
    reductions_shielded .empty (uneven 2) .or default
  refine ⟨⟨rfl, (hreduced _ rfl).2.2⟩, ⟨rfl, ?_⟩, ⟨rfl, hbroken _ rfl, hshields⟩,
    ⟨rfl, hbroken' _ rfl⟩⟩
  obtain ⟨ops, hops, happlies⟩ := hpushed _ rfl
  obtain rfl : [.marker, .operator .plus default] = ops := (List.cons.inj hops).2
  exact happlies

end Yard
end Formula
