import Mathlib.Data.List.TakeWhile

/-! Command lines of flags and options with a value, given as `name=value` or as `name value`.
A command line splits into items in one way at most, and a later item overrides an earlier one
of the same name. -/

namespace Basis.CommandLine

inductive Item where
  | flag (name : String)
  | joined (name value : String)
  | separate (name value : String)
  deriving DecidableEq, Repr

namespace Item

def args : Item → List String
  | flag name => [name]
  | joined name value => [name ++ "=" ++ value]
  | separate name value => [name, value]

def valueOf (name : String) : Item → Option String
  | flag _ => none
  | joined n value | separate n value => if n = name then some value else none

end Item

structure Grammar where
  flags : List String
  options : List String
  accepts : String → String → Prop
  no_equals : ∀ name ∈ flags ++ options, '=' ∉ name.toList
  disjoint : ∀ name ∈ flags, name ∉ options

def Item.Proper (g : Grammar) : Item → Prop
  | .flag name => name ∈ g.flags
  | .joined name value => name ∈ g.options ∧ value ≠ "" ∧ g.accepts name value
  | .separate name value =>
    name ∈ g.options ∧ value ≠ "" ∧ value.toList.head? ≠ some '-' ∧ g.accepts name value

def Grammar.Splits (g : Grammar) (args : List String) (items : List Item) : Prop :=
  (∀ item ∈ items, item.Proper g) ∧ args = items.flatMap Item.args

theorem toList_joined (name value : String) :
    (name ++ "=" ++ value).toList = name.toList ++ '=' :: value.toList := by
  rw [String.toList_append, String.toList_append, List.append_assoc]
  rfl

section Equals
variable {name : String} (hname : '=' ∉ name.toList)
include hname

theorem ne_equals_of_mem {c : Char} (hc : c ∈ name.toList) : (c != '=') = true :=
  bne_iff_ne.mpr fun heq => hname (heq ▸ hc)

theorem dropWhile_name : name.toList.dropWhile (· != '=') = [] :=
  List.dropWhile_eq_nil_iff.mpr fun _ hc => ne_equals_of_mem hname hc

theorem takeWhile_joined (value : String) :
    (name ++ "=" ++ value).toList.takeWhile (· != '=') = name.toList := by
  rw [toList_joined, List.takeWhile_append_of_pos fun _ hc => ne_equals_of_mem hname hc,
    List.takeWhile_cons_of_neg (by decide), List.append_nil]

theorem dropWhile_joined (value : String) :
    (name ++ "=" ++ value).toList.dropWhile (· != '=') = '=' :: value.toList := by
  rw [toList_joined, List.dropWhile_append_of_pos fun _ hc => ne_equals_of_mem hname hc,
    List.dropWhile_cons_of_neg (by decide)]

theorem name_ne_joined (name' value : String) : name ≠ name' ++ "=" ++ value := by
  rintro rfl
  apply hname
  rw [toList_joined]
  exact List.mem_append_right _ List.mem_cons_self

theorem joined_inj {name' value value' : String} (hname' : '=' ∉ name'.toList)
    (h : name ++ "=" ++ value = name' ++ "=" ++ value') : name = name' ∧ value = value' := by
  have hbefore := takeWhile_joined hname value
  rw [h, takeWhile_joined hname'] at hbefore
  have hafter := dropWhile_joined hname value
  rw [h, dropWhile_joined hname'] at hafter
  exact ⟨(String.toList_inj.mp hbefore).symm, (String.toList_inj.mp (List.cons.inj hafter).2).symm⟩

end Equals

section Unique
variable {g : Grammar}

theorem Grammar.no_equals_of_flag (g : Grammar) {name : String} (h : name ∈ g.flags) : '=' ∉ name.toList :=
  g.no_equals name (List.mem_append_left _ h)

theorem Grammar.no_equals_of_option (g : Grammar) {name : String} (h : name ∈ g.options) : '=' ∉ name.toList :=
  g.no_equals name (List.mem_append_right _ h)

theorem Item.Proper.append_inj {item item' : Item} {rest rest' : List String} (h : item.Proper g)
    (h' : item'.Proper g) (heq : item.args ++ rest = item'.args ++ rest') : item = item' ∧ rest = rest' := by
  -- the first word says which kind of item it is and names it
  cases item with
  | flag name =>
    cases item' with
    | flag name' =>
      obtain ⟨rfl, rfl⟩ := List.cons.inj heq
      exact ⟨rfl, rfl⟩
    | joined name' value' =>
      exact absurd (List.cons.inj heq).1 (name_ne_joined (g.no_equals_of_flag h) _ _)
    | separate name' value' =>
      obtain ⟨rfl, -⟩ := List.cons.inj heq
      exact absurd h'.1 (g.disjoint name h)
  | joined name value =>
    cases item' with
    | flag name' =>
      exact absurd (List.cons.inj heq).1.symm (name_ne_joined (g.no_equals_of_flag h') _ _)
    | joined name' value' =>
      obtain ⟨hword, rfl⟩ := List.cons.inj heq
      obtain ⟨rfl, rfl⟩ := joined_inj (g.no_equals_of_option h.1) (g.no_equals_of_option h'.1) hword
      exact ⟨rfl, rfl⟩
    | separate name' value' =>
      exact absurd (List.cons.inj heq).1.symm (name_ne_joined (g.no_equals_of_option h'.1) _ _)
  | separate name value =>
    cases item' with
    | flag name' =>
      obtain ⟨rfl, -⟩ := List.cons.inj heq
      exact absurd h.1 (g.disjoint name h')
    | joined name' value' =>
      exact absurd (List.cons.inj heq).1 (name_ne_joined (g.no_equals_of_option h.1) _ _)
    | separate name' value' =>
      obtain ⟨rfl, htail⟩ := List.cons.inj heq
      obtain ⟨rfl, rfl⟩ := List.cons.inj htail
      exact ⟨rfl, rfl⟩

theorem Item.args_ne_nil (item : Item) : item.args ≠ [] := by
  cases item <;> exact List.cons_ne_nil _ _

theorem Grammar.splits_nil (g : Grammar) : g.Splits [] [] := ⟨fun _ h => absurd h List.not_mem_nil, rfl⟩

theorem Grammar.splits_nil_iff {items : List Item} : g.Splits [] items ↔ items = [] := by
  refine ⟨fun h => ?_, fun h => h ▸ g.splits_nil⟩
  cases items with
  | nil => rfl
  | cons item items => exact absurd (List.append_eq_nil_iff.mp h.2.symm).1 item.args_ne_nil

theorem Grammar.splits_cons_iff {args : List String} {item : Item} {items : List Item} :
    g.Splits args (item :: items) ↔ item.Proper g ∧ ∃ rest, args = item.args ++ rest ∧ g.Splits rest items := by
  constructor
  · rintro ⟨hproper, hargs⟩
    refine ⟨hproper item List.mem_cons_self, items.flatMap Item.args, hargs, ?_, rfl⟩
    exact fun item' h => hproper item' (List.mem_cons_of_mem _ h)
  · rintro ⟨hitem, rest, rfl, hproper, rfl⟩
    exact ⟨List.forall_mem_cons.mpr ⟨hitem, hproper⟩, rfl⟩

theorem Grammar.Splits.unique {args : List String} {items items' : List Item} (h : g.Splits args items)
    (h' : g.Splits args items') : items = items' := by
  induction items generalizing args items' with
  | nil =>
    obtain rfl : args = [] := h.2
    exact (g.splits_nil_iff.mp h').symm
  | cons item items ih =>
    obtain ⟨hitem, rest, rfl, hrest⟩ := splits_cons_iff.mp h
    cases items' with
    | nil => exact absurd (List.append_eq_nil_iff.mp h'.2).1 item.args_ne_nil
    | cons item' items' =>
      obtain ⟨hitem', rest', heq, hrest'⟩ := splits_cons_iff.mp h'
      obtain ⟨rfl, rfl⟩ := hitem.append_inj hitem' heq
      rw [ih hrest hrest']

end Unique

def lastValue (name : String) (items : List Item) : Option String := items.reverse.findSome? (Item.valueOf name)

def hasFlag (name : String) (items : List Item) : Bool := decide (.flag name ∈ items)

section Last
variable (name : String)

@[simp] theorem lastValue_concat (items : List Item) (item : Item) :
    lastValue name (items ++ [item]) = (item.valueOf name).or (lastValue name items) := by
  rw [lastValue, List.reverse_append, List.reverse_singleton, List.singleton_append, List.findSome?_cons, ← lastValue]
  cases item.valueOf name <;> rfl

@[simp] theorem hasFlag_concat (items : List Item) (item : Item) :
    hasFlag name (items ++ [item]) = (hasFlag name items || decide (item = .flag name)) := by
  simp [hasFlag, eq_comm]

variable {name}

theorem Grammar.Splits.accepts_lastValue {g : Grammar} {args : List String} {items : List Item} {value : String}
    (h : g.Splits args items) (hlast : lastValue name items = some value) : g.accepts name value := by
  obtain ⟨item, hmem, hvalue⟩ := List.exists_of_findSome?_eq_some hlast
  have hproper := h.1 item (List.mem_reverse.mp hmem)
  cases item with
  | flag n => cases hvalue
  | joined n v =>
    obtain ⟨rfl, hv⟩ := Option.ite_none_right_eq_some.mp hvalue
    cases hv
    exact hproper.2.2
  | separate n v =>
    obtain ⟨rfl, hv⟩ := Option.ite_none_right_eq_some.mp hvalue
    cases hv
    exact hproper.2.2.2

end Last
end Basis.CommandLine
