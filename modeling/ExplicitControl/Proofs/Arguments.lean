import ExplicitControl.Command.RunOptions
import ExplicitControl.Proofs.Numerals
import Mathlib.Data.List.TakeWhile

/-!
# The arguments of a run

Arguments are pieces one after another: a path, flags without value, and flags with a value behind an equals sign or in
the next argument.  Arguments made of well-formed pieces with one path are read as that path and what the pieces ask
for, and no other arguments are understood.
-/

namespace ExplicitControl

/-! ## 1. Pieces of arguments -/

inductive BareFlag where
  | native | verbose | shortVerbose | traceTree
deriving DecidableEq

def BareFlag.text : BareFlag → String
  | native => "--native"
  | verbose => "--verbose"
  | shortVerbose => "-v"
  | traceTree => "--trace-tree"

def BareFlag.set (o : RunOptions) : BareFlag → RunOptions
  | native => { o with native := true }
  | verbose => { o with verbose := true }
  | shortVerbose => { o with verbose := true }
  | traceTree => { o with traceTree := true }

def ValueFlag.most : ValueFlag → Nat
  | breakAt => 4294967295
  | _ => RunOptions.maxWord

def ValueFlag.Takes (f : ValueFlag) (value : String) : Prop :=
  f = .source ∨ ∃ n, Spells value n ∧ n ≤ f.most

inductive Argument where
  | path (path : String)
  /-- An option without value; `extra` is a text behind an equals sign, which means nothing. -/
  | bare (flag : BareFlag) (extra : Option String)
  /-- An option with its value, which is `inline` if it stands behind an equals sign. -/
  | valued (flag : ValueFlag) (value : String) (inline : Bool)
deriving DecidableEq

namespace Argument

def render : Argument → List String
  | .path p => [p]
  | bare flag none => [flag.text]
  | bare flag (some extra) => [flag.text ++ "=" ++ extra]
  | valued flag value true => [flag.text ++ "=" ++ value]
  | valued flag value false => [flag.text, value]

theorem length_render_pos (a : Argument) : 0 < a.render.length := by
  cases a with
  | path p => exact Nat.zero_lt_succ _
  | bare flag extra => cases extra <;> exact Nat.zero_lt_succ _
  | valued flag value inline => cases inline <;> exact Nat.zero_lt_succ _

/-- A path does not start with a dash, the short flag has nothing behind an equals sign, and a value is one of
its flag. -/
def WellFormed : Argument → Prop
  | .path p => p.toList.head? ≠ some '-'
  | bare flag extra => flag = .shortVerbose → extra = none
  | valued flag value _ => flag.Takes value

def path? : Argument → Option String
  | .path p => some p
  | _ => none

def bare? : Argument → Option BareFlag
  | bare flag _ => some flag
  | _ => none

def value? (flag : ValueFlag) : Argument → Option String
  | valued flag' value _ => if flag' = flag then some value else none
  | _ => none

def paths (as : List Argument) : List String :=
  as.filterMap path?

def bares (as : List Argument) : List BareFlag :=
  as.filterMap bare?

def values (flag : ValueFlag) (as : List Argument) : List String :=
  as.filterMap (value? flag)

def numbers (flag : ValueFlag) (as : List Argument) : List Nat :=
  (values flag as).filterMap (Decimal.readNat? flag.most)

end Argument

/-- The options that pieces ask for on top of options: of a flag given more than once the last value counts,
but every statement to pause before. -/
def RunOptions.updated (o : RunOptions) (as : List Argument) : RunOptions where
  maxDepth := (Argument.numbers .maxDepth as).getLast?.or o.maxDepth
  steps := (Argument.numbers .steps as).getLast?.or o.steps
  timeout := (Argument.numbers .timeoutMs as).getLast?.or o.timeout
  native := o.native || (Argument.bares as).any (· == .native)
  verbose := o.verbose || (Argument.bares as).any fun b => b == .verbose || b == .shortVerbose
  breakpoints := o.breakpoints ++ (Argument.numbers .breakAt as).map Nat.toUInt32
  traceTree := o.traceTree || (Argument.bares as).any (· == .traceTree)
  source := (Argument.values .source as).getLast?.or o.source

namespace RunOptions

/-! ## 2. Reading one piece -/

theorem splitArgument_of_no_equals {a : String} (h : '=' ∉ a.toList) : splitArgument a = (a, none) := by
  have htake : a.toList.takeWhile (fun c => c != '=') = a.toList := by
    rw [List.takeWhile_eq_self_iff]
    intro c hc
    simp only [bne_iff_ne, ne_eq]
    rintro rfl
    exact h hc
  simp only [splitArgument, htake, List.drop_length]

/-- Behind the first equals sign of a long flag stands its value. -/
theorem splitArgument_long {flag : String} (hflag : '=' ∉ flag.toList) (hlong : flag.toList.take 2 = ['-', '-'])
    (value : String) : splitArgument (flag ++ "=" ++ value) = (flag, some value) := by
  have htext : (flag ++ "=" ++ value).toList = flag.toList ++ '=' :: value.toList := by simp
  have htake : (flag.toList ++ '=' :: value.toList).takeWhile (fun c => c != '=') = flag.toList := by
    rw [List.takeWhile_append_of_pos]
    · simp
    · intro c hc
      simp only [bne_iff_ne, ne_eq]
      rintro rfl
      exact hflag hc
  simp only [splitArgument, htext, htake, List.drop_left, hlong, if_true, String.ofList_toList]

/-- An argument is one flag, or a long flag with the value behind its first equals sign. -/
theorem splitArgument_cases (a : String) :
    splitArgument a = (a, none) ∨
      ∃ flag value, a = flag ++ "=" ++ value ∧ '=' ∉ flag.toList ∧ flag.toList.take 2 = ['-', '-'] := by
  by_cases heq : '=' ∈ a.toList
  · obtain ⟨flag, value, htext, hflag⟩ := List.eq_append_cons_of_mem heq
    have htake : (flag ++ '=' :: value).takeWhile (fun c => c != '=') = flag := by
      rw [List.takeWhile_append_of_pos]
      · simp
      · intro c hc
        simp only [bne_iff_ne, ne_eq]
        rintro rfl
        exact hflag hc
    by_cases hlong : flag.take 2 = ['-', '-']
    · refine .inr ⟨String.ofList flag, String.ofList value, ?_, ?_, ?_⟩
      · apply String.toList_inj.mp
        simp [htext]
      · rwa [String.toList_ofList]
      · rwa [String.toList_ofList]
    · left
      simp only [splitArgument, htext, htake, List.drop_left, hlong, if_false]
  · exact .inl (splitArgument_of_no_equals heq)

theorem bareFlag_no_equals (b : BareFlag) : '=' ∉ b.text.toList := by
  cases b <;> decide

theorem valueFlag_no_equals (f : ValueFlag) : '=' ∉ f.text.toList := by
  cases f <;> decide

theorem bareFlag_long {b : BareFlag} (h : b ≠ .shortVerbose) : b.text.toList.take 2 = ['-', '-'] := by
  cases b with
  | shortVerbose => exact absurd rfl h
  | _ => rfl

theorem valueFlag_long (f : ValueFlag) : f.text.toList.take 2 = ['-', '-'] := by
  cases f <;> rfl

theorem setBare?_text (o : RunOptions) (b : BareFlag) : o.setBare? b.text = some (b.set o) := by
  cases b <;> simp [setBare?, BareFlag.text, BareFlag.set]

theorem setBare?_valueFlag (o : RunOptions) (f : ValueFlag) : o.setBare? f.text = none := by
  cases f <;> simp [setBare?, ValueFlag.text]

theorem setBare?_of_ne (o : RunOptions) {flag : String} (h : ∀ b : BareFlag, flag ≠ b.text) :
    o.setBare? flag = none := by
  have hnative : flag ≠ "--native" := h .native
  have hverbose : flag ≠ "--verbose" := h .verbose
  have hshort : flag ≠ "-v" := h .shortVerbose
  have htree : flag ≠ "--trace-tree" := h .traceTree
  simp [setBare?, hnative, hverbose, hshort, htree]

theorem find?_text (f : ValueFlag) : ValueFlag.all.find? (fun g => g.text == f.text) = some f := by
  cases f <;> simp [ValueFlag.all, ValueFlag.text]

theorem find?_of_ne {flag : String} (h : ∀ f : ValueFlag, flag ≠ f.text) :
    ValueFlag.all.find? (fun g => g.text == flag) = none := by
  rw [List.find?_eq_none]
  intro f _ heq
  exact h f (beq_iff_eq.mp heq).symm

section

variable {a flag : String} {inline : Option String} (hsplit : splitArgument a = (flag, inline))

include hsplit

theorem parseFrom_of_bare {o o' : RunOptions} (hbare : o.setBare? flag = some o') (path : Option String)
    (rest : List String) : parseFrom path o (a :: rest) = parseFrom path o' rest := by
  rw [parseFrom.eq_def]
  simp only [hsplit, hbare]

/-- An argument whose flag is unknown is an error, or the path if it is the first one without a dash in
front. -/
theorem parseFrom_of_other {o : RunOptions} (hbare : ∀ b : BareFlag, flag ≠ b.text)
    (hvalue : ∀ f : ValueFlag, flag ≠ f.text) (path : Option String) (rest : List String) :
    parseFrom path o (a :: rest) =
      if flag.toList.head? = some '-' then .error (.unknownOption flag)
      else
        match path with
        | none => parseFrom (some a) o rest
        | some _ => .error (.unexpectedArgument a) := by
  cases path <;> rw [parseFrom.eq_def] <;> simp only [hsplit, setBare?_of_ne o hbare, find?_of_ne hvalue]

end

theorem parseFrom_of_inline {a value : String} {f : ValueFlag} (hsplit : splitArgument a = (f.text, some value))
    (path : Option String) (o : RunOptions) (rest : List String) :
    parseFrom path o (a :: rest) = (o.setValue f value).bind fun o => parseFrom path o rest := by
  rw [parseFrom.eq_def]
  simp only [hsplit, setBare?_valueFlag, find?_text]
  cases o.setValue f value <;> rfl

theorem parseFrom_of_apart {a : String} {f : ValueFlag} (hsplit : splitArgument a = (f.text, none))
    (path : Option String) (o : RunOptions) (value : String) (rest : List String) :
    parseFrom path o (a :: value :: rest) = (o.setValue f value).bind fun o => parseFrom path o rest := by
  rw [parseFrom.eq_def]
  simp only [hsplit, setBare?_valueFlag, find?_text]
  cases o.setValue f value <;> rfl

/-- A flag without value is taken into account, and a text behind it is passed over. -/
theorem parseFrom_bare (path : Option String) (o : RunOptions) {b : BareFlag} {extra : Option String}
    (h : (Argument.bare b extra).WellFormed) (rest : List String) :
    parseFrom path o ((Argument.bare b extra).render ++ rest) = parseFrom path (b.set o) rest := by
  cases extra with
  | none => exact parseFrom_of_bare (splitArgument_of_no_equals (bareFlag_no_equals b)) (setBare?_text o b) path rest
  | some extra =>
    have hlong : b ≠ .shortVerbose := fun hshort => by cases h hshort
    exact parseFrom_of_bare (splitArgument_long (bareFlag_no_equals b) (bareFlag_long hlong) extra)
      (setBare?_text o b) path rest

/-- A value is read in the same way from behind an equals sign and from the next argument. -/
theorem parseFrom_valued (path : Option String) (o : RunOptions) (f : ValueFlag) (value : String) (inline : Bool)
    (rest : List String) : parseFrom path o ((Argument.valued f value inline).render ++ rest) =
      (o.setValue f value).bind fun o => parseFrom path o rest := by
  cases inline with
  | true =>
    exact parseFrom_of_inline (splitArgument_long (valueFlag_no_equals f) (valueFlag_long f) value) path o rest
  | false =>
    exact parseFrom_of_apart (splitArgument_of_no_equals (valueFlag_no_equals f)) path o value rest

/-- A flag that no value follows is an error. -/
theorem parseFrom_waiting (path : Option String) (o : RunOptions) (f : ValueFlag) :
    parseFrom path o [f.text] = .error (.missingValue f.text) := by
  rw [parseFrom.eq_def]
  simp only [splitArgument_of_no_equals (valueFlag_no_equals f), setBare?_valueFlag, find?_text]

/-- A text without a dash in front is no option. -/
theorem ne_text_of_head {p : String} (h : p.toList.head? ≠ some '-') :
    (∀ b : BareFlag, p ≠ b.text) ∧ ∀ f : ValueFlag, p ≠ f.text := by
  refine ⟨fun b hb => ?_, fun f hf => ?_⟩
  · rw [hb] at h
    cases b <;> exact h rfl
  · rw [hf] at h
    cases f <;> exact h rfl

theorem head?_of_long {flag : String} (hlong : flag.toList.take 2 = ['-', '-']) :
    flag.toList.head? = some '-' := by
  have hhead := congrArg List.head? hlong
  rwa [List.head?_take, if_neg (by decide)] at hhead

theorem splitArgument_of_head {p : String} (h : p.toList.head? ≠ some '-') : splitArgument p = (p, none) := by
  rcases splitArgument_cases p with hsplit | ⟨flag, value, rfl, -, hlong⟩
  · exact hsplit
  · refine absurd ?_ h
    rw [String.toList_append, String.toList_append, List.append_assoc, List.head?_append, head?_of_long hlong]
    rfl

/-- The first argument without a dash in front is the path, and a second one is an error. -/
theorem parseFrom_path (path : Option String) (o : RunOptions) {p : String} (h : p.toList.head? ≠ some '-')
    (rest : List String) : parseFrom path o (p :: rest) =
      match path with
      | none => parseFrom (some p) o rest
      | some _ => .error (.unexpectedArgument p) := by
  obtain ⟨hbare, hvalue⟩ := ne_text_of_head h
  rw [parseFrom_of_other (splitArgument_of_head h) hbare hvalue, if_neg h]

/-- What an argument can be: a flag that waits for its value, a flag with its value, a flag without value, a
text without a dash in front, or an unknown option. -/
theorem argument_cases (a : String) :
    (∃ f : ValueFlag, a = f.text) ∨
    (∃ f value, [a] = (Argument.valued f value true).render) ∨
    (∃ b extra, (Argument.bare b extra).WellFormed ∧ [a] = (Argument.bare b extra).render) ∨
    a.toList.head? ≠ some '-' ∨
    (∃ flag, ∀ path o rest, parseFrom path o (a :: rest) = .error (.unknownOption flag)) := by
  rcases splitArgument_cases a with hsplit | ⟨flag, value, rfl, hequals, hlong⟩
  · by_cases hbare : ∃ b : BareFlag, a = b.text
    · obtain ⟨b, rfl⟩ := hbare
      exact .inr (.inr (.inl ⟨b, none, fun _ => rfl, rfl⟩))
    by_cases hvalue : ∃ f : ValueFlag, a = f.text
    · exact .inl hvalue
    by_cases hhead : a.toList.head? = some '-'
    · rw [not_exists] at hbare hvalue
      refine .inr (.inr (.inr (.inr ⟨a, fun path o rest => ?_⟩)))
      rw [parseFrom_of_other hsplit hbare hvalue, if_pos hhead]
    · exact .inr (.inr (.inr (.inl hhead)))
  · by_cases hbare : ∃ b : BareFlag, flag = b.text
    · obtain ⟨b, rfl⟩ := hbare
      refine .inr (.inr (.inl ⟨b, some value, fun hshort => ?_, rfl⟩))
      rw [hshort] at hlong
      exact absurd hlong (by decide)
    by_cases hvalue : ∃ f : ValueFlag, flag = f.text
    · obtain ⟨f, rfl⟩ := hvalue
      exact .inr (.inl ⟨f, value, rfl⟩)
    rw [not_exists] at hbare hvalue
    refine .inr (.inr (.inr (.inr ⟨flag, fun path o rest => ?_⟩)))
    rw [parseFrom_of_other (splitArgument_long hequals hlong value) hbare hvalue, if_pos (head?_of_long hlong)]

/-! ## 3. Reading all pieces -/

section Singletons

variable (f g : ValueFlag) (b : BareFlag) (extra : Option String) (p value : String) (inline : Bool)

theorem values_bare : Argument.values g [.bare b extra] = [] := rfl

theorem values_path : Argument.values g [.path p] = [] := rfl

theorem numbers_bare : Argument.numbers g [.bare b extra] = [] := rfl

theorem numbers_path : Argument.numbers g [.path p] = [] := rfl

theorem values_valued : Argument.values g [.valued f value inline] = if f = g then [value] else [] := by
  simp only [Argument.values, Argument.value?, List.filterMap_cons, List.filterMap_nil]
  split <;> simp_all

theorem numbers_valued : Argument.numbers g [.valued f value inline] =
    if f = g then (Decimal.readNat? g.most value).toList else [] := by
  rw [Argument.numbers, values_valued]
  split
  · cases hread : Decimal.readNat? g.most value <;> simp [hread]
  · rfl

theorem bares_bare : Argument.bares [.bare b extra] = [b] := rfl

theorem bares_path : Argument.bares [.path p] = [] := rfl

theorem bares_valued : Argument.bares [.valued f value inline] = [] := rfl

end Singletons

theorem updated_nil (o : RunOptions) : o.updated [] = o := by
  simp [updated, Argument.numbers, Argument.values, Argument.bares]

theorem updated_append (o : RunOptions) (as bs : List Argument) :
    o.updated (as ++ bs) = (o.updated as).updated bs := by
  simp only [updated, Argument.numbers, Argument.values, Argument.bares, List.filterMap_append, List.getLast?_append,
    Option.or_assoc, List.map_append, List.append_assoc, List.any_append, Bool.or_assoc]

theorem updated_bare (o : RunOptions) (b : BareFlag) (extra : Option String) :
    o.updated [.bare b extra] = b.set o := by
  cases b <;> simp [updated, values_bare, numbers_bare, bares_bare, BareFlag.set]

theorem updated_path (o : RunOptions) (p : String) : o.updated [.path p] = o := by
  simp [updated, values_path, numbers_path, bares_path]

/-- A flag takes its values only, and of a flag given again the last value counts. -/
theorem setValue_eq_ok_iff (o o' : RunOptions) (f : ValueFlag) (value : String) (inline : Bool) :
    o.setValue f value = .ok o' ↔ f.Takes value ∧ o' = o.updated [.valued f value inline] := by
  have hread : f.Takes value ↔ f = .source ∨ ∃ n, Decimal.readNat? f.most value = some n := by
    simp only [ValueFlag.Takes, Decimal.readNat?_eq_some_iff]
  rw [hread]
  simp only [updated, numbers_valued, values_valued, bares_valued]
  cases f with
  | source => simp [setValue, eq_comm]
  | maxDepth | steps | timeoutMs | breakAt =>
    simp only [setValue, number, ValueFlag.most]
    cases Decimal.readNat? _ value <;> simp [Bind.bind, Except.bind, Pure.pure, Except.pure, eq_comm]

/-- Arguments made of well-formed pieces with at most one path are read as that path and the options that the
pieces ask for. -/
theorem parseFrom_pieces (as : List Argument) (hwf : ∀ a ∈ as, a.WellFormed) (path : Option String) (o : RunOptions)
    (hpath : (path.toList ++ Argument.paths as).length ≤ 1) :
    parseFrom path o (as.flatMap Argument.render) =
      .ok ((path.toList ++ Argument.paths as).head?, o.updated as) := by
  induction as generalizing path o with
  | nil =>
    rw [updated_nil]
    cases path <;> rfl
  | cons a as ih =>
    have hrest := fun a' h => hwf a' (List.mem_cons_of_mem _ h)
    have ha := hwf a List.mem_cons_self
    rw [List.flatMap_cons, show a :: as = [a] ++ as from rfl, updated_append]
    cases a with
    | path p =>
      cases path with
      | some q => simp [Argument.paths, Argument.path?] at hpath
      | none =>
        rw [updated_path]
        exact (parseFrom_path none o ha _).trans (ih hrest (some p) o hpath)
    | bare b extra =>
      rw [updated_bare]
      exact (parseFrom_bare path o ha _).trans (ih hrest path (b.set o) hpath)
    | valued f value inline =>
      have hset := (setValue_eq_ok_iff o _ f value inline).mpr ⟨ha, rfl⟩
      rw [parseFrom_valued, hset]
      exact ih hrest path _ hpath

/-- Arguments that are understood start with a well-formed piece, and those after it are understood too. -/
theorem first_piece {a : String} {rest : List String} {path : Option String} {o : RunOptions}
    {r : Option String × RunOptions} (h : parseFrom path o (a :: rest) = .ok r) :
    ∃ (p : Argument) (rest' : List String) (path' : Option String) (o' : RunOptions),
      a :: rest = p.render ++ rest' ∧ p.WellFormed ∧ path'.toList = path.toList ++ p.path?.toList ∧
        parseFrom path' o' rest' = .ok r := by
  have hvalued : ∀ (f : ValueFlag) (value : String) (inline : Bool) (rest' : List String),
      a :: rest = (Argument.valued f value inline).render ++ rest' →
      f.Takes value ∧ ∃ o', parseFrom path o' rest' = .ok r := by
    intro f value inline rest' hargs
    rw [hargs, parseFrom_valued] at h
    cases hset : o.setValue f value with
    | error e =>
      rw [hset] at h
      cases h
    | ok o' =>
      rw [hset] at h
      exact ⟨((setValue_eq_ok_iff o o' f value inline).mp hset).1, o', h⟩
  rcases argument_cases a with ⟨f, rfl⟩ | ⟨f, value, ha⟩ | ⟨b, extra, hwf, ha⟩ | hhead | ⟨_, hunknown⟩
  · cases rest with
    | nil =>
      rw [parseFrom_waiting] at h
      cases h
    | cons value rest' =>
      obtain ⟨htakes, o', ho'⟩ := hvalued f value false rest' rfl
      exact ⟨.valued f value false, rest', path, o', rfl, htakes, by simp [Argument.path?], ho'⟩
  · have hargs : a :: rest = (Argument.valued f value true).render ++ rest := by rw [← ha]; rfl
    obtain ⟨htakes, o', ho'⟩ := hvalued f value true rest hargs
    exact ⟨.valued f value true, rest, path, o', hargs, htakes, by simp [Argument.path?], ho'⟩
  · have hargs : a :: rest = (Argument.bare b extra).render ++ rest := by rw [← ha]; rfl
    rw [hargs, parseFrom_bare path o hwf] at h
    exact ⟨.bare b extra, rest, path, b.set o, hargs, hwf, by simp [Argument.path?], h⟩
  · rw [parseFrom_path path o hhead] at h
    cases path with
    | some _ => cases h
    | none => exact ⟨.path a, rest, some a, o, rfl, hhead, rfl, h⟩
  · rw [hunknown] at h
    cases h

/-- Arguments that are understood are made of well-formed pieces. -/
theorem pieces_of_parseFrom {args : List String} {path path' : Option String} {o o' : RunOptions}
    (h : parseFrom path o args = .ok (path', o')) :
    ∃ as : List Argument, args = as.flatMap Argument.render ∧ (∀ a ∈ as, a.WellFormed) ∧
      path'.toList = path.toList ++ Argument.paths as := by
  induction hn : args.length using Nat.strong_induction_on generalizing args path o with
  | _ n ih =>
    cases args with
    | nil =>
      cases h
      exact ⟨[], rfl, by simp, by simp [Argument.paths]⟩
    | cons a rest =>
      obtain ⟨p, rest', path₁, o₁, hargs, hp, hpath, hrest⟩ := first_piece h
      have hlt : rest'.length < n := by
        have hpos : 0 < p.render.length := p.length_render_pos
        rw [← hn, hargs, List.length_append]
        omega
      obtain ⟨as, rfl, has, hpaths⟩ := ih _ hlt hrest rfl
      refine ⟨p :: as, hargs, by simpa using ⟨hp, has⟩, ?_⟩
      rw [hpaths, hpath, List.append_assoc]
      cases hq : p.path? <;> simp [Argument.paths, hq]

theorem parse_congr {args args' : List String} (h : parseFrom none empty args = parseFrom none empty args') :
    parse args = parse args' := by
  unfold parse
  rw [h]

theorem parse_ok_iff {args : List String} {path : String} {o : RunOptions} :
    parse args = .ok (path, o) ↔ parseFrom none empty args = .ok (some path, o) := by
  unfold parse
  rcases parseFrom none empty args with e | ⟨_ | p, o'⟩ <;> simp

/-! ## 4. Nothing else is understood -/

/-- The arguments that are understood are those made of well-formed pieces: one path that does not start with a dash,
flags with a value each and flags without value; the options are what the pieces ask for.  A long flag without value
is taken with any text behind an equals sign, which counts for nothing. -/
theorem understood_iff_pieces (args : List String) (path : String) (o : RunOptions) :
    parse args = .ok (path, o) ↔
      ∃ as : List Argument, args = as.flatMap Argument.render ∧ (∀ a ∈ as, a.WellFormed) ∧
        Argument.paths as = [path] ∧ o = empty.updated as := by
  rw [parse_ok_iff]
  constructor
  · intro h
    obtain ⟨as, rfl, hwf, hpaths⟩ := pieces_of_parseFrom h
    have hpath : Argument.paths as = [path] := hpaths.symm
    have hread := parseFrom_pieces as hwf none empty (by simp [hpath])
    rw [hread] at h
    exact ⟨as, rfl, hwf, hpath, (congrArg Prod.snd (Except.ok.inj h)).symm⟩
  · rintro ⟨as, rfl, hwf, hpath, rfl⟩
    have hread := parseFrom_pieces as hwf none empty (by simp [hpath])
    rwa [hpath] at hread

/-- Not all that is understood is documented: a value that says not to convert operands, where no value belongs, is
passed over, and operands are converted. -/
theorem ignored_inline_value :
    parse ["t.json", "--native=false"] = .ok ("t.json", { empty with native := true }) ∧
    ¬ ∃ as : List Argument, ["t.json", "--native=false"] = as.flatMap Argument.render ∧
      (∀ a ∈ as, a.WellFormed) ∧ ∀ b extra, .bare b extra ∈ as → extra = none := by
  refine ⟨by decide +kernel, ?_⟩
  rintro ⟨as, hargs, hwf, hplain⟩
  have hsplit : splitArgument "--native=false" = ("--native", some "false") := by decide +kernel
  have hmem : "--native=false" ∈ as.flatMap Argument.render := by simp [← hargs]
  obtain ⟨a, ha, harg⟩ := List.mem_flatMap.mp hmem
  cases a with
  | path p =>
    rw [List.mem_singleton.mp harg] at hsplit
    exact absurd (hsplit.symm.trans (splitArgument_of_head (hwf _ ha))) (by simp)
  | bare b extra =>
    rw [hplain b extra ha] at harg
    revert harg
    cases b <;> decide
  | valued f value inline =>
    cases inline with
    | true =>
      rw [List.mem_singleton.mp harg, splitArgument_long (valueFlag_no_equals f) (valueFlag_long f)] at hsplit
      have htext : f.text = "--native" := congrArg Prod.fst hsplit
      revert htext
      cases f <;> decide
    | false =>
      -- the value stands behind its flag, which is not among the arguments
      have hflag : f.text ∈ ["t.json", "--native=false"] :=
        hargs ▸ List.mem_flatMap.mpr ⟨_, ha, List.mem_cons_self⟩
      revert hflag
      cases f <;> decide

end RunOptions

end ExplicitControl
