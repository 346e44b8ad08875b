import ExplicitControl.Proofs.Arguments
import Mathlib.Data.List.Forall2

/-!
# Spelling out what a run is to do

Whoever spells a path and options out in arguments gets them back, in whatever order and in whichever of the two ways
the values are written.  Of a flag given again the last value counts, so that more values in front of it change nothing,
and a value in the next argument can be moved behind an equals sign.
-/

namespace ExplicitControl

namespace RunOptions

/-! ## 1. Whole arguments -/

/-- The arguments end with a whole piece: no flag among them waits for its value. -/
inductive Whole : List String → Prop where
  | nil : Whole []
  | one {a : String} {rest : List String} (h : ∀ f : ValueFlag, a ≠ f.text) : Whole rest → Whole (a :: rest)
  | pair (f : ValueFlag) (value : String) {rest : List String} : Whole rest → Whole (f.text :: value :: rest)

def forget (o : RunOptions) : ValueFlag → RunOptions
  | .maxDepth => { o with maxDepth := none }
  | .steps => { o with steps := none }
  | .timeoutMs => { o with timeout := none }
  | .breakAt => { o with breakpoints := [] }
  | .source => { o with source := none }

/-- A value is refused whatever the options, or changes nothing but what its flag gave them. -/
theorem setValue_cases (g : ValueFlag) (value : String) :
    (∃ e, ∀ o : RunOptions, o.setValue g value = .error e) ∨
      ∀ o : RunOptions, o.setValue g value = .ok (o.updated [.valued g value true]) := by
  by_cases htakes : g.Takes value
  · exact .inr fun o => (setValue_eq_ok_iff o _ g value true).mpr ⟨htakes, rfl⟩
  · left
    cases hset : empty.setValue g value with
    | ok o => exact absurd ((setValue_eq_ok_iff _ _ g value true).mp hset).1 htakes
    | error e =>
      refine ⟨e, fun o => ?_⟩
      cases g with
      | source => cases hset
      | maxDepth | steps | timeoutMs | breakAt =>
        simp only [setValue, number] at hset ⊢
        cases hread : Decimal.readNat? _ value <;> simp_all [Bind.bind, Except.bind, Pure.pure, Except.pure]

/-- What is taken into account does not depend on what a flag gave before. -/
theorem forget_updated {f : ValueFlag} {o o' : RunOptions} (h : o.forget f = o'.forget f) (as : List Argument) :
    (o.updated as).forget f = (o'.updated as).forget f := by
  cases f <;> simp_all [forget, updated]

theorem forget_set {f : ValueFlag} {o o' : RunOptions} (h : o.forget f = o'.forget f) (b : BareFlag) :
    (b.set o).forget f = (b.set o').forget f := by
  rw [← updated_bare o b none, ← updated_bare o' b none]
  exact forget_updated h _

/-- Of a flag given again the last value counts, but of the statements to pause before all do. -/
theorem updated_valued_eq {f : ValueFlag} (hf : f ≠ .breakAt) {value : String} (htakes : f.Takes value)
    {o o' : RunOptions} (h : o.forget f = o'.forget f) (inline : Bool) :
    o.updated [.valued f value inline] = o'.updated [.valued f value inline] := by
  have hread : f.Takes value ↔ f = .source ∨ ∃ n, Decimal.readNat? f.most value = some n := by
    simp only [ValueFlag.Takes, Decimal.readNat?_eq_some_iff]
  rw [hread] at htakes
  cases f with
  | breakAt => exact absurd rfl hf
  | source => simp_all [forget, updated, numbers_valued, values_valued, bares_valued]
  | maxDepth | steps | timeoutMs =>
    obtain ⟨n, hn⟩ := htakes.resolve_left (by decide)
    simp_all [forget, updated, numbers_valued, values_valued, bares_valued]

theorem updated_forget {f : ValueFlag} (o : RunOptions) (value : String) (inline : Bool) :
    (o.updated [.valued f value inline]).forget f = o.forget f := by
  cases f <;> simp [forget, updated, numbers_valued, values_valued, bares_valued]

/-- What was given to a flag before it is given a value does not matter, unless it is a statement to pause
before. -/
theorem parseFrom_forget {f : ValueFlag} (hf : f ≠ .breakAt) {front : List String} (hfront : Whole front)
    (value : String) (inline : Bool) (rest : List String) (path : Option String) {o o' : RunOptions}
    (h : o.forget f = o'.forget f) :
    parseFrom path o (front ++ ((Argument.valued f value inline).render ++ rest)) =
      parseFrom path o' (front ++ ((Argument.valued f value inline).render ++ rest)) := by
  have hstep : ∀ (g : ValueFlag) (value' : String) (inline' : Bool) (rest' : List String) (o o' : RunOptions),
      o.forget f = o'.forget f →
      (∀ path (o o' : RunOptions), o.forget f = o'.forget f →
        parseFrom path o rest' = parseFrom path o' rest') → ∀ path,
      parseFrom path o ((Argument.valued g value' inline').render ++ rest') =
        parseFrom path o' ((Argument.valued g value' inline').render ++ rest') := by
    intro g value' inline' rest' o o' h hrest path
    rw [parseFrom_valued, parseFrom_valued]
    rcases setValue_cases g value' with ⟨e, he⟩ | hok
    · rw [he, he]
    · rw [hok, hok]
      exact hrest path _ _ (forget_updated h _)
  induction hfront generalizing path o o' with
  | nil =>
    rw [List.nil_append, parseFrom_valued, parseFrom_valued]
    rcases setValue_cases f value with ⟨e, he⟩ | hok
    · rw [he, he]
    · have htakes := ((setValue_eq_ok_iff o _ f value true).mp (hok o)).1
      rw [hok, hok, updated_valued_eq hf htakes h]
  | @one a front ha _ ih =>
    rcases argument_cases a with ⟨g, rfl⟩ | ⟨g, value', ha'⟩ | ⟨b, extra, hwf, ha'⟩ | hhead | ⟨_, hunknown⟩
    · exact absurd rfl (ha g)
    · rw [← List.singleton_append, ha', List.append_assoc]
      exact hstep g value' true _ o o' h (fun path o o' h => ih path h) path
    · rw [← List.singleton_append, ha', List.append_assoc, parseFrom_bare path o hwf, parseFrom_bare path o' hwf]
      exact ih path (forget_set h b)
    · rw [List.cons_append, parseFrom_path path o hhead, parseFrom_path path o' hhead]
      cases path with
      | none => exact ih (some a) h
      | some _ => rfl
    · rw [List.cons_append, hunknown, hunknown]
  | pair g value' _ ih => exact hstep g value' false _ o o' h (fun path o o' h => ih path h) path

/-- Behind a whole piece the arguments are read on their own. -/
theorem parseFrom_append {front : List String} (hfront : Whole front) (path : Option String) (o : RunOptions)
    (rest : List String) : parseFrom path o (front ++ rest) =
      (parseFrom path o front).bind fun r => parseFrom r.1 r.2 rest := by
  have hvalued : ∀ (g : ValueFlag) (value : String) (inline : Bool) (front : List String),
      (∀ path o, parseFrom path o (front ++ rest) =
        (parseFrom path o front).bind fun r => parseFrom r.1 r.2 rest) → ∀ path o,
      parseFrom path o ((Argument.valued g value inline).render ++ (front ++ rest)) =
        (parseFrom path o ((Argument.valued g value inline).render ++ front)).bind fun r =>
          parseFrom r.1 r.2 rest := by
    intro g value inline front hrest path o
    rw [parseFrom_valued, parseFrom_valued]
    cases o.setValue g value with
    | error e => rfl
    | ok o' => exact hrest path o'
  induction hfront generalizing path o with
  | nil => rfl
  | @one a front ha _ ih =>
    rcases argument_cases a with ⟨g, rfl⟩ | ⟨g, value, ha'⟩ | ⟨b, extra, hwf, ha'⟩ | hhead | ⟨_, hunknown⟩
    · exact absurd rfl (ha g)
    · rw [← List.singleton_append, ha', List.append_assoc]
      exact hvalued g value true front ih path o
    · rw [← List.singleton_append, ha', List.append_assoc, parseFrom_bare path o hwf, parseFrom_bare path o hwf]
      exact ih path _
    · rw [List.cons_append, parseFrom_path path o hhead, parseFrom_path path o hhead]
      cases path with
      | none => exact ih (some a) o
      | some _ => rfl
    · rw [List.cons_append, hunknown, hunknown]
      rfl
  | pair g value _ ih => exact hvalued g value false _ ih path o

/-! ## 2. Spelling options out -/

def FitsWords (o : RunOptions) : Prop :=
  (∀ n, o.maxDepth = some n → n ≤ maxWord) ∧ (∀ n, o.steps = some n → n ≤ maxWord) ∧
    ∀ n, o.timeout = some n → n ≤ maxWord

/-- The pieces, in any order but that of the offsets, spell out the path and the options: each number by a
numeral, each text by itself, behind its flag or in one argument with it, and the flags without value by
themselves. -/
structure Spelling (as : List Argument) (path : String) (o : RunOptions) : Prop where
  path_eq : Argument.paths as = [path]
  maxDepth : List.Forall₂ Spells (Argument.values .maxDepth as) o.maxDepth.toList
  steps : List.Forall₂ Spells (Argument.values .steps as) o.steps.toList
  timeout : List.Forall₂ Spells (Argument.values .timeoutMs as) o.timeout.toList
  native : o.native = true ↔ .native ∈ Argument.bares as
  verbose : o.verbose = true ↔ .verbose ∈ Argument.bares as ∨ .shortVerbose ∈ Argument.bares as
  breakpoints : List.Forall₂ (fun s n => Spells s n.toNat) (Argument.values .breakAt as) o.breakpoints
  traceTree : o.traceTree = true ↔ .traceTree ∈ Argument.bares as
  source : Argument.values .source as = o.source.toList
  plain : ∀ b extra, .bare b extra ∈ as → extra = none

/-- Numerals in bounds are read as their numbers. -/
theorem numbers_of_forall₂ {f : ValueFlag} {as : List Argument} {ns : List Nat}
    (h : List.Forall₂ Spells (Argument.values f as) ns) (hmost : ∀ n ∈ ns, n ≤ f.most) :
    Argument.numbers f as = ns := by
  unfold Argument.numbers
  generalize Argument.values f as = ss at h
  induction h with
  | nil => rfl
  | @cons s n ss ns hs _ ih =>
    have hread := Decimal.readNat?_eq_some_iff.mpr ⟨hs, hmost n List.mem_cons_self⟩
    rw [List.filterMap_cons_some hread, ih fun n hn => hmost n (List.mem_cons_of_mem _ hn)]

theorem mem_values {as : List Argument} {f : ValueFlag} {value : String} {inline : Bool}
    (h : .valued f value inline ∈ as) : value ∈ Argument.values f as :=
  List.mem_filterMap.mpr ⟨_, h, by simp [Argument.value?]⟩

/-- Numerals in bounds are values of their flag. -/
theorem takes_of_forall₂ {f : ValueFlag} {as : List Argument} {ns : List Nat}
    (h : List.Forall₂ Spells (Argument.values f as) ns) (hmost : ∀ n ∈ ns, n ≤ f.most) {value : String}
    (hvalue : value ∈ Argument.values f as) : f.Takes value := by
  generalize Argument.values f as = ss at h hvalue
  induction h with
  | nil => cases hvalue
  | @cons s n ss ns hs _ ih =>
    rcases List.mem_cons.mp hvalue with rfl | hvalue
    · exact .inr ⟨n, hs, hmost n List.mem_cons_self⟩
    · exact ih (fun n hn => hmost n (List.mem_cons_of_mem _ hn)) hvalue

namespace Spelling

variable {as : List Argument} {path : String} {o : RunOptions}

/-- The offsets as numbers. -/
theorem offsets (h : Spelling as path o) :
    List.Forall₂ Spells (Argument.values .breakAt as) (o.breakpoints.map UInt32.toNat) :=
  List.forall₂_map_right_iff.mpr h.breakpoints

theorem offsets_le (o : RunOptions) : ∀ n ∈ o.breakpoints.map UInt32.toNat, n ≤ ValueFlag.breakAt.most := by
  intro n hn
  obtain ⟨w, -, rfl⟩ := List.mem_map.mp hn
  exact Nat.le_of_lt_succ w.toNat_lt

theorem wellFormed (h : Spelling as path o) (hpath : path.toList.head? ≠ some '-') (hfits : o.FitsWords) :
    ∀ a ∈ as, a.WellFormed := by
  intro a ha
  cases a with
  | path p =>
    have hp : p ∈ Argument.paths as := List.mem_filterMap.mpr ⟨_, ha, rfl⟩
    rw [h.path_eq, List.mem_singleton] at hp
    rw [hp]
    exact hpath
  | bare b extra => exact fun _ => h.plain b extra ha
  | valued f value inline =>
    have hvalue := mem_values ha
    cases f with
    | source => exact .inl rfl
    | maxDepth => exact takes_of_forall₂ h.maxDepth (fun n hn => hfits.1 n (Option.mem_toList.mp hn)) hvalue
    | steps => exact takes_of_forall₂ h.steps (fun n hn => hfits.2.1 n (Option.mem_toList.mp hn)) hvalue
    | timeoutMs => exact takes_of_forall₂ h.timeout (fun n hn => hfits.2.2 n (Option.mem_toList.mp hn)) hvalue
    | breakAt => exact takes_of_forall₂ h.offsets (offsets_le o) hvalue

theorem getLast?_toList {α : Type} (x : Option α) : x.toList.getLast? = x := by
  cases x <;> rfl

/-- The options are what the pieces ask for. -/
theorem updated_eq (h : Spelling as path o) (hfits : o.FitsWords) : empty.updated as = o := by
  have hbool : ∀ {b : Bool} {p : BareFlag → Bool}, (b = true ↔ ∃ x ∈ Argument.bares as, p x = true) →
      (false || (Argument.bares as).any p) = b := by
    intro b p hb
    rw [Bool.false_or, Bool.eq_iff_iff, List.any_eq_true, hb]
  have hdepth := numbers_of_forall₂ h.maxDepth fun n hn => hfits.1 n (Option.mem_toList.mp hn)
  have hsteps := numbers_of_forall₂ h.steps fun n hn => hfits.2.1 n (Option.mem_toList.mp hn)
  have htime := numbers_of_forall₂ h.timeout fun n hn => hfits.2.2 n (Option.mem_toList.mp hn)
  have hbreaks := numbers_of_forall₂ h.offsets (offsets_le o)
  have hoffsets : (o.breakpoints.map UInt32.toNat).map Nat.toUInt32 = o.breakpoints := by
    rw [List.map_map]
    exact (List.map_congr_left fun w _ => UInt32.ofNat_toNat).trans (List.map_id _)
  have hnative := hbool (p := (· == .native)) (h.native.trans (by simp))
  have hverbose := hbool (p := fun b => b == .verbose || b == .shortVerbose)
    (h.verbose.trans (by simp [and_or_left, exists_or]))
  have htree := hbool (p := (· == .traceTree)) (h.traceTree.trans (by simp))
  simp only [updated, empty, hdepth, hsteps, htime, hbreaks, hoffsets, h.source, getLast?_toList, Option.or_none,
    List.nil_append, hnative, hverbose, htree]

end Spelling

def Repeats (f : ValueFlag) (as : List Argument) : Prop :=
  f ≠ .breakAt ∧ ∀ a ∈ as, ∃ value inline, a = .valued f value inline ∧ f.Takes value

theorem parseFrom_repeats {f : ValueFlag} {extra : List Argument} (h : Repeats f extra) (o : RunOptions)
    (args : List String) : ∃ o' : RunOptions, o'.forget f = o.forget f ∧
      ∀ path, parseFrom path o (extra.flatMap Argument.render ++ args) = parseFrom path o' args := by
  obtain ⟨hf, hextra⟩ := h
  induction extra generalizing o with
  | nil => exact ⟨o, rfl, fun _ => rfl⟩
  | cons a extra ih =>
    obtain ⟨value, inline, rfl, htakes⟩ := hextra a List.mem_cons_self
    obtain ⟨o', ho', hread⟩ := ih (o.updated [.valued f value inline]) fun a ha =>
      hextra a (List.mem_cons_of_mem _ ha)
    refine ⟨o', ho'.trans (updated_forget o value inline), fun path => ?_⟩
    rw [List.flatMap_cons, List.append_assoc, parseFrom_valued,
      (setValue_eq_ok_iff o _ f value inline).mpr ⟨htakes, rfl⟩]
    exact hread path

/-- Arguments that spell out a path and options whose numbers fit 64 bits are read as that path and those
options, however they are ordered and written. More values of a flag in front of arguments that give the flag a
value change nothing, and a value reads the same as the next argument and behind an equals sign. -/
theorem spelled_arguments_read_back :
    (∀ (as : List Argument) (path : String) (o : RunOptions), Spelling as path o →
      path.toList.head? ≠ some '-' → o.FitsWords → parse (as.flatMap Argument.render) = .ok (path, o)) ∧
    (∀ (f : ValueFlag) (extra : List Argument) (front : List String) (value : String) (inline : Bool)
      (rest : List String), Repeats f extra → Whole front →
      parse (extra.flatMap Argument.render ++
          (front ++ ((Argument.valued f value inline).render ++ rest))) =
        parse (front ++ ((Argument.valued f value inline).render ++ rest))) ∧
    ∀ (front : List String) (f : ValueFlag) (value : String) (rest : List String), Whole front →
      parse (front ++ f.text :: value :: rest) = parse (front ++ (f.text ++ "=" ++ value) :: rest) := by
  refine ⟨?_, ?_, ?_⟩
  · intro as path o h hpath hfits
    have hread := parseFrom_pieces as (h.wellFormed hpath hfits) none empty (by simp [h.path_eq])
    rw [h.path_eq, h.updated_eq hfits] at hread
    exact parse_ok_iff.mpr hread
  · intro f extra front value inline rest hextra hfront
    obtain ⟨o', ho', hread⟩ := parseFrom_repeats hextra empty
      (front ++ ((Argument.valued f value inline).render ++ rest))
    exact parse_congr ((hread none).trans (parseFrom_forget hextra.1 hfront value inline rest none ho'))
  · intro front f value rest hfront
    have happly := fun inline => parseFrom_append hfront none empty ((Argument.valued f value inline).render ++ rest)
    simp only [parseFrom_valued] at happly
    have hsame := (happly false).trans (happly true).symm
    exact parse_congr hsame

/-- Among them arguments with a text of the source that starts with a dash, an offset with zeros in front and steps
given twice, which are read as the last of them. -/
theorem spelled_arguments_read_back_both_forms :
    parse ["--max-depth", "50", "tree.json", "--steps=1000", "--break=4", "--native", "--break", "+09", "-v",
        "--source", "--a=b"] =
      .ok ("tree.json", ⟨some 50, some 1000, none, true, true, [4, 9], false, some "--a=b"⟩) ∧
    parse ["--steps=7", "t.json", "--steps", "8"] = parse ["t.json", "--steps", "8"] ∧
    parse ["t.json", "--steps", "x"] = parse ["t.json", "--steps=x"] := by
  have hdigits : ∀ {s : String} (sign : String) (zeros n : Nat), sign ∈ ["", "+"] →
      s = sign ++ String.ofList (List.replicate zeros '0') ++ n.repr → Spells s n :=
    fun sign zeros _ hsign hs => ⟨sign, hsign, zeros, hs⟩
  have hfile : Whole ["t.json"] := .one (fun f => by cases f <;> decide) .nil
  refine ⟨?_, ?_, ?_⟩
  · exact spelled_arguments_read_back.1
      [.valued .maxDepth "50" false, .path "tree.json", .valued .steps "1000" true, .valued .breakAt "4" true,
        .bare .native none, .valued .breakAt "+09" false, .bare .shortVerbose none, .valued .source "--a=b" false]
      "tree.json" ⟨some 50, some 1000, none, true, true, [4, 9], false, some "--a=b"⟩
      { path_eq := rfl
        maxDepth := .cons (hdigits "" 0 50 (by simp) (by decide)) .nil
        steps := .cons (hdigits "" 0 1000 (by simp) (by decide)) .nil
        timeout := .nil
        native := by decide
        verbose := by decide
        breakpoints := .cons (hdigits "" 0 4 (by simp) (by decide)) (.cons (hdigits "+" 1 9 (by simp) (by decide)) .nil)
        traceTree := by decide
        source := rfl
        plain := by simp +contextual [or_imp] }
      (by decide) ⟨by simp [maxWord], by simp [maxWord], by simp⟩
  · exact spelled_arguments_read_back.2.1 .steps [.valued .steps "7" true] ["t.json"] "8" false []
      ⟨by decide, fun a ha => ⟨"7", true, List.mem_singleton.mp ha, .inr ⟨7, hdigits "" 0 7 (by simp) (by decide),
        by decide⟩⟩⟩ hfile
  · exact spelled_arguments_read_back.2.2 ["t.json"] .steps "x" [] hfile

/-- A number of milliseconds that does not fit 64 bits is spelled out and refused. -/
theorem long_timeout_refused : ¬ ∀ (as : List Argument) (path : String) (o : RunOptions), Spelling as path o →
    path.toList.head? ≠ some '-' → (∀ n, o.maxDepth = some n → n ≤ maxWord) →
    (∀ n, o.steps = some n → n ≤ maxWord) → parse (as.flatMap Argument.render) = .ok (path, o) := by
  intro h
  have hread := h [.path "t.json", .valued .timeoutMs "18446744073709551616" false] "t.json"
    { empty with timeout := some 18446744073709551616 }
    { path_eq := rfl
      maxDepth := .nil
      steps := .nil
      timeout := .cons ⟨"", by simp, 0, by decide⟩ .nil
      native := by decide
      verbose := by decide
      breakpoints := .nil
      traceTree := by decide
      source := rfl
      plain := by simp }
    (by decide) (by simp [empty]) (by simp [empty])
  revert hread
  decide +kernel

end RunOptions

end ExplicitControl
