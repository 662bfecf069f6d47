import Mathlib
import StagingIndex.Bytes

/-! # A machine that stops

A file can also be read by positions: by numbers of sixty-four bits that say where in the file the
next byte is. On this machine every sum, every difference, every slice and every move is checked
first, and the machine stops where one cannot be made. A run that does not stop ends with a value or
with a fault, as reading by what follows does.

* `Trap`, `Checked` — why the machine stops, and the steps that are checked
* `Track`, `Machine` — what a run leaves behind, and programs
* `Track.Reaches` — positions stay in the data and do not move back, and there are no more nodes of
  cache trees than bytes read
* `Machine.Agrees`, `Machine.Agrees.bind` — a program does not stop, and does what a reader does -/

namespace StagingIndex

/-- Why the machine stops. -/
inductive Trap where
  /-- A sum does not fit into sixty-four bits. -/
  | overflow
  /-- A difference is below zero. -/
  | underflow
  /-- An element or a slice is not within what it is taken from. -/
  | outOfRange
  /-- The position would move back. -/
  | movedBack
  /-- The position would leave the data. -/
  | leftData
  /-- A loop takes more rounds than it may. -/
  | endless
deriving DecidableEq, Repr

/-! ## Checked steps -/

namespace Bytes

variable {b : UInt8} {data s rest : Bytes} {n : Nat}

/-- A split is made where the byte is found. -/
theorem splitAt?_eq (b : UInt8) (s : Bytes) :
    splitAt? b s = (s.findIdx? (· = b)).map fun i => (s.take i, s.drop (i + 1)) := by
  induction s with
  | nil => rfl
  | cons c s ih =>
    by_cases h : c = b
    · simp [splitAt?, List.findIdx?_cons, h]
    · simp only [splitAt?, List.findIdx?_cons, h, ih, if_false, decide_false, Bool.false_eq_true,
        Option.map_map]
      rfl

/-- What is split off from a position on, and the byte after it, are within the data, and what
follows is the rest of the data. -/
theorem drop_of_splitAt? (h : splitAt? b (data.drop n) = some (s, rest)) :
    n + (s.length + 1) ≤ data.length ∧ rest = data.drop (n + (s.length + 1)) := by
  obtain ⟨hdata, -⟩ := eq_append_of_splitAt? h
  have hlen := congrArg List.length hdata
  simp only [List.length_drop, List.length_append, List.length_cons] at hlen
  refine ⟨by omega, ?_⟩
  rw [← List.drop_drop, hdata]
  simp

end Bytes

namespace Checked

variable {α : Type} {xs : List α} {a b low high : Nat}

/-- A sum. -/
def add (a b : Nat) : Except Trap Nat :=
  if a + b < 2 ^ 64 then .ok (a + b) else .error .overflow

/-- A difference. -/
def sub (a b : Nat) : Except Trap Nat :=
  if b ≤ a then .ok (a - b) else .error .underflow

/-- The element at a position. -/
def item (xs : List α) (i : Nat) : Except Trap α :=
  match xs[i]? with
  | some x => .ok x
  | none => .error .outOfRange

/-- The elements from one position up to another. -/
def slice (xs : List α) (low high : Nat) : Except Trap (List α) :=
  if low ≤ high ∧ high ≤ xs.length then .ok ((xs.drop low).take (high - low))
  else .error .outOfRange

/-- The elements from a position on. -/
def sliceFrom (xs : List α) (low : Nat) : Except Trap (List α) := slice xs low xs.length

/-- A sum, if it fits into sixty-four bits. -/
def add? (a b : Nat) : Option Nat := if a + b < 2 ^ 64 then some (a + b) else none

/-- A product, if it fits into sixty-four bits. -/
def mul? (a b : Nat) : Option Nat := if a * b < 2 ^ 64 then some (a * b) else none

/-- The bytes before the first `b`, how many they are with it, and the bytes after it. -/
def splitAt? (b : UInt8) (s : Bytes) : Except Trap (Option (Bytes × Nat × Bytes)) :=
  match s.findIdx? (· = b) with
  | none => .ok none
  | some i => do
    let before ← slice s 0 i
    let used ← add i 1
    let after ← sliceFrom s used
    return some (before, used, after)

theorem add_eq (h : a + b < 2 ^ 64) : add a b = .ok (a + b) := if_pos h

theorem sub_eq (h : b ≤ a) : sub a b = .ok (a - b) := if_pos h

theorem add?_eq (h : a + b < 2 ^ 64) : add? a b = some (a + b) := if_pos h

theorem item_eq {i : Nat} {x : α} (h : xs[i]? = some x) : item xs i = .ok x := by
  rw [item, h]

theorem item_eq_getD {i : Nat} (h : i < xs.length) (d : α) : item xs i = .ok (xs.getD i d) :=
  item_eq (by simp [h])

theorem slice_eq (h₁ : low ≤ high) (h₂ : high ≤ xs.length) :
    slice xs low high = .ok ((xs.drop low).take (high - low)) := if_pos ⟨h₁, h₂⟩

theorem sliceFrom_eq (h : low ≤ xs.length) : sliceFrom xs low = .ok (xs.drop low) := by
  rw [sliceFrom, slice_eq h le_rfl, List.take_of_length_le (by simp)]

/-- A byte that is found is within the bytes, so what follows it starts at their end at most. -/
theorem splitAt?_eq (b : UInt8) {s : Bytes} (h : s.length < 2 ^ 64) :
    splitAt? b s = .ok ((Bytes.splitAt? b s).map fun p => (p.1, p.1.length + 1, p.2)) := by
  rw [splitAt?, Bytes.splitAt?_eq]
  cases hfind : s.findIdx? (· = b) with
  | none => rfl
  | some i =>
    have hi : i < s.length := (List.findIdx?_eq_some_iff_findIdx_eq.1 hfind).1
    have hlen : (s.take i).length = i := List.length_take_of_le hi.le
    dsimp only
    rw [slice_eq (Nat.zero_le i) hi.le, add_eq (by omega)]
    change (sliceFrom s (i + 1) >>= fun after => pure (some (_, i + 1, after))) = _
    rw [sliceFrom_eq hi, Option.map_some, Option.map_some, hlen]
    rfl

end Checked

/-! ## Programs -/

/-- How many bytes a cache tree was read from, and how many nodes it was found to have. -/
structure Tally where
  bytes : Nat
  nodes : Nat
deriving DecidableEq, Repr

/-- What a run leaves behind: where in the data it is, how many nodes of a cache tree it has read,
and what there was to count in the cache trees that it has done with. -/
structure Track where
  position : Nat
  nodes : Nat
  trees : List Tally
deriving DecidableEq, Repr

namespace Track

/-- Before anything is read. -/
def start : Track := ⟨0, 0, []⟩

/-- What reading data of some length may do to a track. The position stays in the data and does not
move back; a node more takes a byte more. -/
structure Reaches (length : Nat) (t t' : Track) : Prop where
  le : t.position ≤ t'.position
  within : t'.position ≤ length
  nodes : t'.nodes + t.position ≤ t.nodes + t'.position
  trees : t'.trees = t.trees

theorem Reaches.refl {length : Nat} {t : Track} (h : t.position ≤ length) : Reaches length t t :=
  ⟨le_rfl, h, le_rfl, rfl⟩

theorem Reaches.trans {length : Nat} {t t' t'' : Track} (h : Reaches length t t')
    (h' : Reaches length t' t'') : Reaches length t t'' where
  le := h.le.trans h'.le
  within := h'.within
  nodes := by
    have := h.nodes
    have := h'.nodes
    omega
  trees := h'.trees.trans h.trees

end Track

/-- A program: it stops, or it ends with a value or a fault and leaves a track. -/
abbrev Machine (ε α : Type) : Type := ExceptT ε (StateT Track (Except Trap)) α

namespace Machine

variable {ε α β ρ : Type}

/-- End with a fault. -/
def fault (e : ε) : Machine ε α := fun t => .ok (.error e, t)

/-- Go on if a check gives a value, or end with its fault. -/
def check (x : Except ε α) : Machine ε α := fun t => .ok (x, t)

/-- Stop. -/
def halt (trap : Trap) : Machine ε α := fun _ => .error trap

/-- Where in the data the next byte is. -/
def position : Machine ε Nat := fun t => .ok (.ok t.position, t)

/-- Move within the data. -/
def moveTo (data : Bytes) (target : Nat) : Machine ε Unit := fun t =>
  if target < t.position then .error .movedBack
  else if data.length < target then .error .leftData
  else .ok (.ok (), { t with position := target })

/-- Count a node of a cache tree. -/
def countNode : Machine ε Unit := fun t => .ok (.ok (), { t with nodes := t.nodes + 1 })

/-- A program that ends with a value goes on from the track it leaves; one that ends with a fault
ends the whole. -/
theorem bind_apply (m : Machine ε α) (f : α → Machine ε β) (t : Track) :
    (m >>= f) t = match m t with
      | .error trap => .error trap
      | .ok (.error e, t') => .ok (.error e, t')
      | .ok (.ok a, t') => f a t' := by
  change (m t >>= fun p => ExceptT.bindCont f p.1 p.2) = _
  rcases m t with trap | ⟨e | a, t'⟩ <;> rfl

/-- A checked step that can be made gives its value to what follows. -/
theorem step_bind {x : Except Trap α} {a : α} (h : x = .ok a) (f : α → Machine ε β) :
    (liftM x >>= f) = f a := by
  subst h
  rfl

theorem check_ok_bind (a : α) (f : α → Machine ε β) : (check (.ok a) >>= f) = f a := rfl

theorem check_error_bind (e : ε) (f : α → Machine ε β) : (check (.error e) >>= f) = fault e := rfl

/-- A check, and a check after it, are one check. -/
theorem check_bind (x : Except ε α) (f : α → Except ε β) :
    (check x >>= fun a => check (f a)) = check (x >>= f) := by
  funext t
  cases x <;> rfl

/-! ## Agreement -/

/-- From a track on, a program on data of some length does not stop, and does what a reader does,
where `place` is what the reader has at a position. -/
def Agrees (place : Nat → ρ) (length : Nat) (t : Track) (m : Machine ε α)
    (r : StateT ρ (Except ε) α) : Prop :=
  ∃ x t', m t = .ok (x, t') ∧ t.Reaches length t' ∧
    r (place t.position) = x.map fun a => (a, place t'.position)

namespace Agrees

variable {place : Nat → ρ} {length : Nat} {t : Track}

/-- Only what the reader does at the position matters. -/
theorem congr {m : Machine ε α} {r r' : StateT ρ (Except ε) α}
    (h : r (place t.position) = r' (place t.position)) (hm : Agrees place length t m r') :
    Agrees place length t m r := by
  obtain ⟨x, t', hrun, hreach, hr⟩ := hm
  exact ⟨x, t', hrun, hreach, h.trans hr⟩

/-- A value that takes no reading. -/
theorem pure (h : t.position ≤ length) (a : α) :
    Agrees place length t (Pure.pure a : Machine ε α) (Pure.pure a) :=
  ⟨.ok a, t, rfl, .refl h, rfl⟩

/-- A fault. -/
theorem fault (h : t.position ≤ length) (e : ε) :
    Agrees place length t (Machine.fault e : Machine ε α) fun _ => .error e :=
  ⟨.error e, t, rfl, .refl h, rfl⟩

/-- A check that takes no reading. -/
theorem check (h : t.position ≤ length) (x : Except ε α) :
    Agrees place length t (Machine.check x) (liftM x) := by
  refine ⟨x, t, rfl, .refl h, ?_⟩
  cases x <;> rfl

/-- Two programs one after the other, where the second goes on from what the first leaves. -/
theorem bind {m : Machine ε α} {f : α → Machine ε β} {r : StateT ρ (Except ε) α}
    {g : α → StateT ρ (Except ε) β} (hm : Agrees place length t m r)
    (hf : ∀ a t', t.Reaches length t' → r (place t.position) = .ok (a, place t'.position) →
      Agrees place length t' (f a) (g a)) :
    Agrees place length t (m >>= f) (r >>= g) := by
  obtain ⟨x, t', hrun, hreach, hr⟩ := hm
  have hbind : (r >>= g) (place t.position) =
      (r (place t.position) >>= fun p => g p.1 p.2) := rfl
  cases x with
  | error e =>
    refine ⟨.error e, t', ?_, hreach, ?_⟩
    · rw [bind_apply, hrun]
    · rw [hbind, hr]
      rfl
  | ok a =>
    obtain ⟨y, t'', hrun', hreach', hg⟩ := hf a t' hreach hr
    refine ⟨y, t'', ?_, hreach.trans hreach', ?_⟩
    · rw [bind_apply, hrun]
      exact hrun'
    · rw [hbind, hr]
      exact hg

/-- A choice of two programs, and a program after it. -/
theorem ite_bind {c : Prop} [Decidable c] {m₁ m₂ : Machine ε α} {f : α → Machine ε β}
    {r₁ r₂ : StateT ρ (Except ε) α} {g : α → StateT ρ (Except ε) β}
    (h : Agrees place length t (if c then m₁ else m₂) (if c then r₁ else r₂))
    (hf : ∀ a t', t.Reaches length t' →
      (if c then r₁ else r₂) (place t.position) = .ok (a, place t'.position) →
      Agrees place length t' (f a) (g a)) :
    Agrees place length t (if c then m₁ >>= f else m₂ >>= f)
      (if c then r₁ >>= g else r₂ >>= g) := by
  by_cases hc : c
  · simp only [if_pos hc] at h hf ⊢
    exact h.bind hf
  · simp only [if_neg hc] at h hf ⊢
    exact h.bind hf

/-- A checked step that can be made. -/
theorem step {x : Except Trap α} {a : α} {f : α → Machine ε β} {r : StateT ρ (Except ε) β}
    (h : x = .ok a) (hf : Agrees place length t (f a) r) :
    Agrees place length t (liftM x >>= f) r := by
  rw [step_bind h]
  exact hf

/-- A checked step that can be made, at the end. -/
theorem last {x : Except Trap α} {a : α} (h : x = .ok a) (ht : t.position ≤ length) :
    Agrees place length t (liftM x : Machine ε α) (Pure.pure a) := by
  subst h
  exact .pure ht a

/-- A look at the position. -/
theorem position {f : Nat → Machine ε β} {r : StateT ρ (Except ε) β}
    (hf : Agrees place length t (f t.position) r) :
    Agrees place length t (Machine.position >>= f) r := hf

/-- A move onwards in the data. -/
theorem moveTo {data : Bytes} {target : Nat} {f : Unit → Machine ε β} {r r' : StateT ρ (Except ε) β}
    (h₁ : t.position ≤ target) (h₂ : target ≤ data.length)
    (hr : r (place t.position) = r' (place target))
    (hf : Agrees place data.length { t with position := target } (f ()) r') :
    Agrees place data.length t (Machine.moveTo data target >>= f) r := by
  obtain ⟨x, t', hrun, hreach, hr'⟩ := hf
  have hmove : t.Reaches data.length { t with position := target } :=
    ⟨h₁, h₂, Nat.add_le_add_left h₁ _, rfl⟩
  refine ⟨x, t', ?_, hmove.trans hreach, hr.trans hr'⟩
  rw [bind_apply, Machine.moveTo, if_neg (by omega), if_neg (by omega)]
  exact hrun

/-- A move onwards, with a node counted for it. -/
theorem moveTo_countNode {data : Bytes} {target : Nat} {f : Unit → Machine ε β}
    {r r' : StateT ρ (Except ε) β} (h₁ : t.position < target) (h₂ : target ≤ data.length)
    (hr : r (place t.position) = r' (place target))
    (hf : Agrees place data.length ⟨target, t.nodes + 1, t.trees⟩ (f ()) r') :
    Agrees place data.length t
      (Machine.moveTo data target >>= fun _ => Machine.countNode >>= f) r := by
  obtain ⟨x, t', hrun, hreach, hr'⟩ := hf
  have hmove : t.Reaches data.length ⟨target, t.nodes + 1, t.trees⟩ := by
    refine ⟨h₁.le, h₂, ?_, rfl⟩
    dsimp only
    omega
  refine ⟨x, t', ?_, hmove.trans hreach, hr.trans hr'⟩
  rw [bind_apply, Machine.moveTo, if_neg (by omega), if_neg (by omega)]
  exact hrun

end Agrees

end Machine

end StagingIndex
