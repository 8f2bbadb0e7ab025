import Mathlib.Data.List.Find
import AetherStream.Basis.CommandLine
import AetherStream.Cli.Args

/-! The command lines that a table of options accepts: values, single arguments, items, and whole
command lines, which the loop reads exactly if they split into items of the table's grammar. -/

namespace AetherStream.Cli
open Basis.CommandLine

def IsNumber (value : String) : Prop :=
  value ≠ "" ∧ (∀ c ∈ value.toList, c.isDigit = true) ∧ Nat.ofDigitChars 10 value.toList 0 < 2 ^ 64

def number (value : String) : UInt64 := UInt64.ofNat (Nat.ofDigitChars 10 value.toList 0)

inductive ValueKind where
  | path
  | number
  | oneOf (values : List Nat)

def ValueKind.Accepts (value : String) : ValueKind → Prop
  | path => True
  | number => IsNumber value
  | oneOf values => IsNumber value ∧ Nat.ofDigitChars 10 value.toList 0 ∈ values

def Rejected {α : Type} (x : Expected α) : Prop := ∃ detail, x = .error (invalid detail)

theorem rejected_ofStatus {α : Type} (detail : String) : Rejected (.ofStatus (invalid detail) : Expected α) :=
  ⟨detail, rfl⟩

theorem parseU64_of_isNumber {value : String} (h : IsNumber value) : parseU64 value = .ok (number value) := by
  obtain ⟨hne, hdigits, hlt⟩ := h
  have htake : value.toList.takeWhile Char.isDigit = value.toList := List.takeWhile_eq_self_iff.mpr hdigits
  have hdrop : value.toList.dropWhile Char.isDigit = [] := List.dropWhile_eq_nil_iff.mpr hdigits
  have hlist : value.toList ≠ [] := fun hnil => hne (String.toList_inj.mp hnil)
  have hminus : value.toList.head? ≠ some '-' := fun hhead =>
    absurd (hdigits '-' (List.mem_of_mem_head? hhead)) (by decide)
  have hresult : fromChars value.toList = { value := number value, ptr := [], ec := .none } := by
    unfold fromChars
    dsimp only
    rw [htake, hdrop, if_neg (mt List.isEmpty_iff.mp hlist), if_neg (Nat.not_le.mpr hlt)]
    rfl
  have hstart : ¬ (value.isEmpty || value.toList.head? == some '-') = true := by
    rw [Bool.or_eq_true, String.isEmpty_iff, beq_iff_eq]
    exact not_or.mpr ⟨hne, hminus⟩
  rw [parseU64, if_neg hstart, hresult]
  rfl

theorem isNumber_of_fromChars {value : String} (hec : (fromChars value.toList).ec = .none)
    (hptr : (fromChars value.toList).ptr = []) : IsNumber value := by
  unfold fromChars at hec hptr
  dsimp only at hec hptr
  split_ifs at hec hptr with hempty hbig
  have hdigits : ∀ c ∈ value.toList, c.isDigit = true := List.dropWhile_eq_nil_iff.mp hptr
  have htake : value.toList.takeWhile Char.isDigit = value.toList := List.takeWhile_eq_self_iff.mpr hdigits
  rw [htake] at hempty hbig
  refine ⟨?_, hdigits, Nat.not_le.mp hbig⟩
  rintro rfl
  exact hempty rfl

theorem parseU64_of_not_isNumber {value : String} (h : ¬ IsNumber value) : Rejected (parseU64 value) := by
  unfold parseU64
  dsimp only
  split_ifs with hstart hbad
  · exact rejected_ofStatus _
  · exact rejected_ofStatus _
  · simp only [Bool.or_eq_true, bne_iff_ne, not_or, not_not, Bool.not_eq_true', Bool.not_eq_false,
      List.isEmpty_iff] at hbad
    exact absurd (isNumber_of_fromChars hbad.1 hbad.2) h

theorem parseSize_of_isNumber {value : String} (h : IsNumber value) : parseSize value = .ok (number value) := by
  rw [parseSize, parseU64_of_isNumber h]
  simp [fitsSizeT_eq_true]

theorem parseSize_of_not_isNumber {value : String} (h : ¬ IsNumber value) : Rejected (parseSize value) := by
  obtain ⟨detail, hparse⟩ := parseU64_of_not_isNumber h
  rw [parseSize, hparse]
  exact rejected_ofStatus detail

theorem toNat_number {value : String} (h : IsNumber value) :
    (number value).toNat = Nat.ofDigitChars 10 value.toList 0 := UInt64.toNat_ofNat_of_lt' h.2.2

section Kind
variable {σ : Type} {value : String}

def OptionKind.valueKind : OptionKind σ → ValueKind
  | path _ => .path
  | u64 _ => .number
  | size _ => .number
  | supportedSize supported _ _ => .oneOf (supported.map UInt64.toNat)

def OptionKind.store (value : String) : OptionKind σ → σ → σ
  | path set, options => set options value
  | u64 set, options => set options (number value)
  | size set, options => set options (number value)
  | supportedSize _ _ set, options => set options (number value)

theorem isSupported_number (h : IsNumber value) (supported : List UInt64) :
    isSupported (number value) supported = true ↔
      Nat.ofDigitChars 10 value.toList 0 ∈ supported.map UInt64.toNat := by
  rw [isSupported, List.contains_iff_mem, ← toNat_number h]
  refine ⟨List.mem_map_of_mem, fun hmem => ?_⟩
  obtain ⟨n, hn, heq⟩ := List.mem_map.mp hmem
  exact UInt64.toNat_inj.mp heq ▸ hn

theorem OptionKind.read_of_accepts {kind : OptionKind σ} (h : kind.valueKind.Accepts value) :
    kind.read value = .ok (kind.store value) := by
  cases kind with
  | path set => rfl
  | u64 set =>
    rw [read, parseU64_of_isNumber h]
    rfl
  | size set =>
    rw [read, parseSize_of_isNumber h]
    rfl
  | supportedSize supported detail set =>
    rw [read, parseSize_of_isNumber h.1]
    have hmem := (isSupported_number h.1 supported).mpr h.2
    simp only [hmem, Bool.not_true, Bool.false_eq_true, if_false]
    rfl

theorem OptionKind.read_of_not_accepts {kind : OptionKind σ} (h : ¬ kind.valueKind.Accepts value) :
    Rejected (kind.read value) := by
  cases kind with
  | path set => exact absurd trivial h
  | u64 set =>
    obtain ⟨detail, hparse⟩ := parseU64_of_not_isNumber h
    rw [read, hparse]
    exact rejected_ofStatus detail
  | size set =>
    obtain ⟨detail, hparse⟩ := parseSize_of_not_isNumber h
    rw [read, hparse]
    exact rejected_ofStatus detail
  | supportedSize supported detail set =>
    by_cases hnumber : IsNumber value
    · have hmem : isSupported (number value) supported = false := by
        rw [← Bool.not_eq_true, isSupported_number hnumber]
        exact fun hmem => h ⟨hnumber, hmem⟩
      rw [read, parseSize_of_isNumber hnumber]
      simp only [hmem, Bool.not_false, if_true]
      exact rejected_ofStatus detail
    · obtain ⟨detail', hparse⟩ := parseSize_of_not_isNumber hnumber
      rw [read, hparse]
      exact rejected_ofStatus detail'

end Kind

theorem matchesOption_iff {arg option : String} :
    matchesOption arg option = true ↔ arg = option ∨ ∃ value, arg = option ++ "=" ++ value := by
  rw [matchesOption, Bool.or_eq_true, beq_iff_eq, List.isPrefixOf_iff_prefix]
  refine or_congr_right ⟨?_, ?_⟩
  · rintro ⟨tail, htail⟩
    refine ⟨String.ofList tail, String.toList_inj.mp ?_⟩
    rw [String.toList_append, String.toList_ofList, htail]
  · rintro ⟨value, rfl⟩
    exact ⟨value.toList, String.toList_append.symm⟩

section Argument
variable {name : String} (hname : '=' ∉ name.toList)
include hname

theorem afterEquals_name : afterEquals name = none := by
  rw [afterEquals, dropWhile_name hname]

theorem afterEquals_joined (value : String) : afterEquals (name ++ "=" ++ value) = some value := by
  rw [afterEquals, dropWhile_joined hname]
  exact congrArg some String.ofList_toList

theorem matchesOption_name {option : String} : matchesOption name option = (option == name) := by
  rw [Bool.eq_iff_iff, matchesOption_iff, beq_iff_eq]
  constructor
  · rintro (rfl | ⟨value, heq⟩)
    · rfl
    · exact absurd heq (name_ne_joined hname _ _)
  · exact fun heq => .inl heq.symm

theorem matchesOption_joined {option : String} (hoption : '=' ∉ option.toList) (value : String) :
    matchesOption (name ++ "=" ++ value) option = (option == name) := by
  rw [Bool.eq_iff_iff, matchesOption_iff, beq_iff_eq]
  constructor
  · rintro (heq | ⟨value', heq⟩)
    · exact absurd heq.symm (name_ne_joined hoption _ _)
    · exact (joined_inj hname hoption heq).1.symm
  · rintro rfl
    exact .inr ⟨value, rfl⟩

theorem value_joined {value : String} (hvalue : value ≠ "") (rest : List String) :
    ArgCursor.value (name ++ "=" ++ value) rest = .ok (value, rest) := by
  unfold ArgCursor.value
  rw [afterEquals_joined hname]
  exact if_neg (mt String.isEmpty_iff.mp hvalue)

theorem value_joined_empty (rest : List String) : Rejected (ArgCursor.value (name ++ "=" ++ "") rest) := by
  unfold ArgCursor.value
  rw [afterEquals_joined hname]
  exact rejected_ofStatus _

theorem value_separate {value : String} (hvalue : value ≠ "") (hminus : value.toList.head? ≠ some '-')
    (rest : List String) : ArgCursor.value name (value :: rest) = .ok (value, rest) := by
  simp only [ArgCursor.value, afterEquals_name hname]
  exact if_neg (by simp [hvalue, hminus])

theorem value_last : Rejected (ArgCursor.value name []) := by
  simp only [ArgCursor.value, afterEquals_name hname]
  exact rejected_ofStatus _

theorem value_missing {next : String} (hmissing : next = "" ∨ next.toList.head? = some '-') (rest : List String) :
    Rejected (ArgCursor.value name (next :: rest)) := by
  simp only [ArgCursor.value, afterEquals_name hname, Bool.or_eq_true, String.isEmpty_iff, beq_iff_eq, hmissing,
    if_true]
  exact rejected_ofStatus _

end Argument

section Parse
variable {σ : Type} {kind : OptionKind σ} {arg value : String} {rest rest' : List String}

theorem OptionKind.parse_of_accepts (hvalue : ArgCursor.value arg rest = .ok (value, rest'))
    (haccepts : kind.valueKind.Accepts value) : kind.parse arg rest = .ok (kind.store value, rest') := by
  rw [OptionKind.parse, hvalue]
  simp only [OptionKind.read_of_accepts haccepts]

theorem OptionKind.parse_of_not_accepts (hvalue : ArgCursor.value arg rest = .ok (value, rest'))
    (haccepts : ¬ kind.valueKind.Accepts value) : Rejected (kind.parse arg rest) := by
  obtain ⟨detail, hread⟩ := OptionKind.read_of_not_accepts haccepts
  rw [OptionKind.parse, hvalue]
  simp only [hread]
  exact rejected_ofStatus detail

theorem OptionKind.parse_of_no_value (hvalue : Rejected (ArgCursor.value arg rest)) :
    Rejected (kind.parse arg rest) := by
  obtain ⟨detail, hvalue⟩ := hvalue
  rw [OptionKind.parse, hvalue]
  exact rejected_ofStatus detail

variable {name : String} (hname : '=' ∉ name.toList)
include hname

theorem OptionKind.parse_joined_rejected (h : value ≠ "" → ¬ kind.valueKind.Accepts value) (rest : List String) :
    Rejected (kind.parse (name ++ "=" ++ value) rest) := by
  by_cases hvalue : value = ""
  · subst hvalue
    exact parse_of_no_value (value_joined_empty hname rest)
  · exact parse_of_not_accepts (value_joined hname hvalue rest) (h hvalue)

theorem OptionKind.parse_separate_rejected
    (h : ∀ value rest', rest = value :: rest' → value ≠ "" → value.toList.head? ≠ some '-' →
      ¬ kind.valueKind.Accepts value) : Rejected (kind.parse name rest) := by
  cases rest with
  | nil => exact parse_of_no_value (value_last hname)
  | cons value rest =>
    by_cases hmissing : value = "" ∨ value.toList.head? = some '-'
    · exact parse_of_no_value (value_missing hname hmissing rest)
    · obtain ⟨hvalue, hminus⟩ := not_or.mp hmissing
      exact parse_of_not_accepts (value_separate hname hvalue hminus rest) (h value rest rfl hvalue hminus)

end Parse

/-- The value kind of an option is that of the first entry of its name. -/
def grammarOf (flags : List String) (kinds : List (String × ValueKind))
    (no_equals : ∀ name ∈ flags ++ kinds.map Prod.fst, '=' ∉ name.toList)
    (disjoint : ∀ name ∈ flags, name ∉ kinds.map Prod.fst) : Grammar where
  flags := flags
  options := kinds.map Prod.fst
  accepts name value := (kinds.find? (·.1 == name)).elim False (·.2.Accepts value)
  no_equals := no_equals
  disjoint := disjoint

namespace OptionTable
variable {σ : Type} (table : OptionTable σ)

def kinds : List (String × ValueKind) := table.options.map fun option => (option.1, option.2.valueKind)

theorem map_fst_kinds : table.kinds.map Prod.fst = table.options.map Prod.fst := by
  rw [kinds, List.map_map]
  rfl

def grammar : Grammar :=
  grammarOf (table.flags.map Prod.fst) table.kinds
    (by rw [map_fst_kinds]; exact table.no_equals) (by rw [map_fst_kinds]; exact table.disjoint)

def apply : Item → σ → σ
  | .flag name => (table.flags.find? (·.1 == name)).elim id Prod.snd
  | .joined name value | .separate name value =>
    (table.options.find? (·.1 == name)).elim id fun option => option.2.store value

def result (defaults : σ) (items : List Item) : σ :=
  items.foldl (fun options item => table.apply item options) defaults

theorem result_concat (defaults : σ) (items : List Item) (item : Item) :
    table.result defaults (items ++ [item]) = table.apply item (table.result defaults items) :=
  List.foldl_append

theorem grammar_options : table.grammar.options = table.options.map Prod.fst := table.map_fst_kinds

variable {table}

theorem mem_flags {name : String} (h : name ∈ table.grammar.flags) :
    ∃ flag, table.flags.find? (·.1 == name) = some flag := by
  obtain ⟨flag, hmem, rfl⟩ := List.mem_map.mp h
  exact Option.isSome_iff_exists.mp (List.find?_isSome.mpr ⟨flag, hmem, beq_self_eq_true flag.1⟩)

theorem find_flag_eq_none {arg : String} (h : arg ∉ table.grammar.flags) :
    table.flags.find? (·.1 == arg) = none := by
  refine List.find?_eq_none.mpr fun flag hmem heq => h ?_
  exact List.mem_map.mpr ⟨flag, hmem, beq_iff_eq.mp heq⟩

theorem mem_options {name : String} (h : name ∈ table.grammar.options) :
    ∃ option, table.options.find? (·.1 == name) = some option := by
  rw [grammar_options] at h
  obtain ⟨option, hmem, rfl⟩ := List.mem_map.mp h
  exact Option.isSome_iff_exists.mp (List.find?_isSome.mpr ⟨option, hmem, beq_self_eq_true option.1⟩)

theorem accepts_iff {name value : String} {option : String × OptionKind σ}
    (h : table.options.find? (·.1 == name) = some option) :
    table.grammar.accepts name value ↔ option.2.valueKind.Accepts value := by
  simp only [grammar, grammarOf, kinds, List.find?_map, Function.comp_def, h, Option.map_some, Option.elim_some]

theorem option_no_equals {option : String × OptionKind σ} (h : option ∈ table.options) : '=' ∉ option.1.toList :=
  table.no_equals option.1 (List.mem_append_right _ (List.mem_map_of_mem h))

theorem parseItem_flag {name : String} (h : name ∈ table.grammar.flags) (rest : List String) :
    table.parseItem name rest = .ok (table.apply (.flag name), rest) := by
  obtain ⟨flag, hflag⟩ := mem_flags h
  rw [parseItem, apply, hflag]
  rfl

section Name
variable {name : String} {option : String × OptionKind σ} (hname : name ∈ table.grammar.options)
  (hoption : table.options.find? (·.1 == name) = some option)
include hname hoption

theorem parseItem_name (rest : List String) : table.parseItem name rest = option.2.parse name rest := by
  have hflag : name ∉ table.grammar.flags := fun h => table.grammar.disjoint name h hname
  have hequals := table.grammar.no_equals_of_option hname
  have hfind : table.options.find? (matchesOption name ·.1) = some option := by
    rw [← hoption]
    exact List.find?_congr fun _ _ => matchesOption_name hequals
  rw [parseItem, find_flag_eq_none hflag, hfind]

theorem parseItem_joined (value : String) (rest : List String) :
    table.parseItem (name ++ "=" ++ value) rest = option.2.parse (name ++ "=" ++ value) rest := by
  have hequals := table.grammar.no_equals_of_option hname
  have hflag : name ++ "=" ++ value ∉ table.grammar.flags := fun h =>
    name_ne_joined (table.grammar.no_equals_of_flag h) _ _ rfl
  have hfind : table.options.find? (matchesOption (name ++ "=" ++ value) ·.1) = some option := by
    rw [← hoption]
    exact List.find?_congr fun other hother => matchesOption_joined hequals (option_no_equals hother) value
  rw [parseItem, find_flag_eq_none hflag, hfind]

end Name

theorem parseItem_of_proper {item : Item} (hitem : item.Proper table.grammar) {arg : String} {args rest : List String}
    (hargs : arg :: args = item.args ++ rest) : table.parseItem arg args = .ok (table.apply item, rest) := by
  cases item with
  | flag name =>
    obtain ⟨rfl, rfl⟩ := List.cons.inj hargs
    exact parseItem_flag hitem args
  | joined name value =>
    obtain ⟨rfl, rfl⟩ := List.cons.inj hargs
    obtain ⟨hname, hvalue, haccepts⟩ := hitem
    obtain ⟨option, hoption⟩ := mem_options hname
    have hread := value_joined (table.grammar.no_equals_of_option hname) hvalue args
    rw [parseItem_joined hname hoption, OptionKind.parse_of_accepts hread ((accepts_iff hoption).mp haccepts),
      apply, hoption]
    rfl
  | separate name value =>
    obtain ⟨rfl, rfl⟩ := List.cons.inj hargs
    obtain ⟨hname, hvalue, hminus, haccepts⟩ := hitem
    obtain ⟨option, hoption⟩ := mem_options hname
    have hread := value_separate (table.grammar.no_equals_of_option hname) hvalue hminus rest
    show table.parseItem arg (value :: rest) = _
    rw [parseItem_name hname hoption,
      OptionKind.parse_of_accepts hread ((accepts_iff hoption).mp haccepts), apply, hoption]
    rfl

theorem parseItem_rejected {arg : String} {args : List String}
    (h : ∀ (item : Item) (rest : List String), item.Proper table.grammar → arg :: args ≠ item.args ++ rest) :
    Rejected (table.parseItem arg args) := by
  have hflag : arg ∉ table.grammar.flags := fun hmem => h (.flag arg) args hmem rfl
  cases hfind : table.options.find? (matchesOption arg ·.1) with
  | none =>
    rw [parseItem, find_flag_eq_none hflag, hfind]
    exact rejected_ofStatus _
  | some found =>
    have hmem := List.mem_of_find?_eq_some hfind
    have hname : found.1 ∈ table.grammar.options := by
      rw [grammar_options]
      exact List.mem_map_of_mem hmem
    have hequals := table.grammar.no_equals_of_option hname
    obtain ⟨option, hoption⟩ := mem_options hname
    have hmatch : matchesOption arg found.1 = true := by
      have hfound := List.find?_some hfind
      exact hfound
    obtain heq | ⟨value, rfl⟩ := matchesOption_iff.mp hmatch
    · -- the value is the next argument
      obtain rfl : arg = found.1 := heq
      rw [parseItem_name hname hoption]
      refine OptionKind.parse_separate_rejected hequals ?_
      rintro value rest rfl hvalue hminus haccepts
      exact h (.separate found.1 value) rest ⟨hname, hvalue, hminus, (accepts_iff hoption).mpr haccepts⟩ rfl
    · rw [parseItem_joined hname hoption]
      refine OptionKind.parse_joined_rejected hequals ?_ args
      intro hvalue haccepts
      exact h (.joined found.1 value) args ⟨hname, hvalue, (accepts_iff hoption).mpr haccepts⟩ rfl

theorem parseFrom_cons (arg : String) (args : List String) (options : σ) :
    table.parseFrom (arg :: args) options = match table.parseItem arg args with
      | .error status => .error status
      | .ok (set, rest) => table.parseFrom rest (set options) := by
  rw [parseFrom]
  split
  · rename_i herror
    rw [herror]
  · rename_i hok
    simp only [hok]

theorem parseFrom_of_ok {arg : String} {args rest : List String} {set : σ → σ}
    (h : table.parseItem arg args = .ok (set, rest)) (options : σ) :
    table.parseFrom (arg :: args) options = table.parseFrom rest (set options) := by
  rw [parseFrom_cons, h]

theorem parseFrom_of_error {arg : String} {args : List String} {status : Status}
    (h : table.parseItem arg args = .error status) (options : σ) :
    table.parseFrom (arg :: args) options = .error status := by
  rw [parseFrom_cons, h]

theorem parseFrom_of_splits {args : List String} {items : List Item} (h : table.grammar.Splits args items)
    (options : σ) : table.parseFrom args options = .ok (table.result options items) := by
  induction items generalizing args options with
  | nil =>
    obtain rfl : args = [] := h.2
    rw [parseFrom]
    rfl
  | cons item items ih =>
    obtain ⟨hitem, rest, hargs, hrest⟩ := Grammar.splits_cons_iff.mp h
    cases args with
    | nil => exact absurd (List.append_eq_nil_iff.mp hargs.symm).1 item.args_ne_nil
    | cons arg args =>
      have hparse := parseItem_of_proper hitem hargs
      rw [parseFrom_of_ok hparse]
      exact ih hrest _

theorem parseFrom_rejected {args : List String} (h : ∀ items, ¬ table.grammar.Splits args items) (options : σ) :
    Rejected (table.parseFrom args options) := by
  -- on the arguments that are left, which every item shortens
  induction hn : args.length using Nat.strong_induction_on generalizing args options with
  | _ n ih =>
    cases args with
    | nil => exact absurd table.grammar.splits_nil (h [])
    | cons arg args =>
      by_cases hitem : ∃ (item : Item) (rest : List String),
          item.Proper table.grammar ∧ arg :: args = item.args ++ rest
      · obtain ⟨item, rest, hproper, hargs⟩ := hitem
        have hparse := parseItem_of_proper hproper hargs
        have hlength := parseItem_length_le hparse
        have hrest : ∀ items, ¬ table.grammar.Splits rest items := fun items hsplits =>
          h (item :: items) (Grammar.splits_cons_iff.mpr ⟨hproper, rest, hargs, hsplits⟩)
        rw [parseFrom_of_ok hparse]
        refine ih rest.length ?_ hrest _ rfl
        rw [← hn, List.length_cons]
        exact Nat.lt_succ_of_le hlength
      · obtain ⟨detail, herror⟩ := parseItem_rejected fun item rest hproper hargs =>
          hitem ⟨item, rest, hproper, hargs⟩
        exact ⟨detail, parseFrom_of_error herror options⟩

variable (table) in
theorem parse_ok_or_rejected (defaults : σ) (args : List String) :
    (∃ items, table.grammar.Splits (args.drop 1) items ∧
        table.parse defaults args = .ok (table.result defaults items)) ∨
      (∀ items, ¬ table.grammar.Splits (args.drop 1) items) ∧ Rejected (table.parse defaults args) := by
  by_cases h : ∃ items, table.grammar.Splits (args.drop 1) items
  · obtain ⟨items, hsplits⟩ := h
    exact .inl ⟨items, hsplits, parseFrom_of_splits hsplits defaults⟩
  · exact .inr ⟨not_exists.mp h, parseFrom_rejected (not_exists.mp h) defaults⟩

end OptionTable

/-- A parser and the command lines it stands for: it accepts exactly those that split into
items, the split is unique and determines the options, and everything else is an invalid
argument. -/
structure Parses {σ : Type} (parse : List String → Expected σ) (g : Grammar) (optionsOf : List Item → σ) : Prop where
  accepts : ∀ args options, parse args = .ok options ↔
    ∃ items, g.Splits (args.drop 1) items ∧ options = optionsOf items
  unique : ∀ args items items', g.Splits args items → g.Splits args items' → items = items'
  rejects : ∀ args status, parse args = .error status → status.code = .invalidArgument

theorem OptionTable.parses {σ : Type} (table : OptionTable σ) (defaults : σ) :
    Parses (table.parse defaults) table.grammar (table.result defaults) where
  accepts args options := by
    obtain ⟨items, hsplits, hparse⟩ | ⟨hnone, detail, herror⟩ := parse_ok_or_rejected table defaults args
    · rw [hparse, Except.ok.injEq]
      constructor
      · exact fun heq => ⟨items, hsplits, heq.symm⟩
      · rintro ⟨items', hsplits', rfl⟩
        rw [hsplits.unique hsplits']
    · rw [herror]
      refine iff_of_false (fun h => by cases h) ?_
      rintro ⟨items, hsplits, -⟩
      exact hnone items hsplits
  unique _ _ _ h h' := h.unique h'
  rejects args status herror := by
    obtain ⟨items, -, hparse⟩ | ⟨-, detail, hdetail⟩ := parse_ok_or_rejected table defaults args
    · rw [hparse] at herror
      cases herror
    · rw [hdetail] at herror
      cases herror
      rfl

end AetherStream.Cli
