import Crosswalk.Proofs.ExportedNames
import Crosswalk.Proofs.WrittenValues

/-!
The integers that a conversion warns about. Main statement: an integer that is out of the range of
exact numbers and is written as a literal, a member or a default is warned about exactly if it
stands as an integer among the literals and members. Defaults are written without a check, and so
are numbers with a fraction part of zero, which are written as integers.
-/

namespace Crosswalk

open List

variable {α : Type} {finding : Finding} {m : Text.Pattern.Found}

/-- Integers are written differently. -/
theorem intText_injective : Function.Injective intText := by
  intro i j h
  have hchars := congrArg String.toList h
  simp only [intText, String.toList_ofList] at hchars
  have hdash {n : Nat} : '-' ∉ decimalDigits n := fun hmem => by
    cases isDigit_decimalDigits _ hmem
  have hdigits {m n : Nat} (h : decimalDigits m = decimalDigits n) : m = n := by
    rw [← Number.ofDigits_decimalDigits m, h, Number.ofDigits_decimalDigits]
  split at hchars <;> split at hchars
  · have := hdigits (append_cancel_left hchars)
    omega
  · exact (hdash (hchars ▸ mem_append_left _ mem_cons_self)).elim
  · exact (hdash (hchars ▸ mem_append_left _ mem_cons_self)).elim
  · have := hdigits hchars
    omega

theorem exists_int_of_isUnsafeInteger {v : Value} (h : isUnsafeInteger v) :
    ∃ i, v = .int i := by
  unfold isUnsafeInteger at h
  split at h
  · exact ⟨_, rfl⟩
  · cases h

/-! ### What is told while a document is read -/

open Logged

/-- A problem of the text, not of what it means. -/
def Diagnostic.IsOfText (d : Diagnostic) : Prop :=
  d.problem = .unbalancedDelimiter ∨ d.problem = .depthExceeded

/-- What was skipped was skipped for its text. -/
def IsSkippedForText {α : Type} (found : Except Diagnostic α) : Prop :=
  ∀ d, found = .error d → d.IsOfText

theorem Document.records_report {found : List (Except Diagnostic α)}
    (h : ∀ f ∈ found, IsSkippedForText f) : (report found).Records Diagnostic.IsOfText := by
  intro d hd
  obtain ⟨f, hf, hsome⟩ := mem_filterMap.mp hd
  cases f with
  | ok _ => cases hsome
  | error e =>
    cases hsome
    exact h _ hf _ rfl

theorem Document.records_readAll {read : α → Except Fault (Nat × Finding)}
    (h : ∀ head place finding, read head = .ok (place, finding) → IsSkippedForText finding)
    (heads : List α) : (readAll heads read).Records Diagnostic.IsOfText := by
  refine (Records.mapM heads fun head _ => Records.lift_bind fun p hp => ?_).bind fun _ _ =>
    .of_log_nil rfl
  refine (records_report fun f hf => ?_).bind fun _ _ => .of_log_nil rfl
  rw [mem_singleton.mp hf]
  exact h head p.1 p.2 hp

theorem isSkippedForText_ok (a : α) : IsSkippedForText (.ok a : Except Diagnostic α) :=
  fun _ h => by cases h

theorem isSkippedForText_unbalanced (name delimiter : String) :
    IsSkippedForText (.error (.unbalancedDelimiter name delimiter) : Except Diagnostic α) := by
  rintro d ⟨⟩
  exact .inl rfl

namespace TypeScript

theorem isSkippedForText_declaration {next : Text.Place}
    (h : declaration m = .ok (some finding, next)) :
    IsSkippedForText finding := by
  have hbraced {name : List Char} {p : Text.Place} {make : List Char → Except Fault Declaration}
      (h : braced name p make = .ok (some finding, next)) : IsSkippedForText finding := by
    rw [braced] at h
    split at h
    · cases h
      exact isSkippedForText_unbalanced _ _
    · obtain ⟨d, _, h⟩ := bind_eq_ok.mp h
      cases h
      exact isSkippedForText_ok d
  rw [declaration] at h
  split at h
  · exact hbraced h
  · split at h
    · rw [aliasDeclaration] at h
      dsimp only at h
      split at h
      · cases h
        exact isSkippedForText_unbalanced _ _
      · split at h
        · cases h
        · split at h
          · obtain ⟨_, _, h⟩ := bind_eq_ok.mp h
            cases h
            exact isSkippedForText_ok _
          · cases h
            exact isSkippedForText_ok _
    · exact hbraced h

theorem isSkippedForText_findingsFrom {fuel : Nat} {p : Text.Place} {found all : List Finding}
    (h : findingsFrom found fuel p = .ok all) (hfound : ∀ f ∈ found, IsSkippedForText f) :
    ∀ f ∈ all, IsSkippedForText f := by
  induction fuel generalizing p found with
  | zero =>
    cases h
    simpa using hfound
  | succ fuel ih =>
    rw [findingsFrom] at h
    split at h
    · cases h
      simpa using hfound
    · split at h
      · cases h
      · rename_i finding next hdeclaration
        refine ih h fun f hf => ?_
        rcases mem_append.mp hf with hf | hf
        · rw [Option.mem_toList] at hf
          cases hf
          exact isSkippedForText_declaration hdeclaration
        · exact hfound f hf

end TypeScript

theorem JsonSchema.records_collapseWarning (n : Nat) :
    (⟨.ok (), collapseWarning n⟩ : Logged Diagnostic Unit).Records Diagnostic.IsOfText := by
  intro d hd
  change d ∈ collapseWarning n at hd
  rw [collapseWarning] at hd
  split at hd
  · cases hd
  · rw [mem_singleton.mp hd]
    exact .inr rfl

theorem JsonSchema.records_load (kind : String) (source : List Char) :
    (load kind source).Records Diagnostic.IsOfText := by
  refine (records_collapseWarning _).bind fun _ _ => ?_
  split <;> exact .of_log_nil rfl

theorem OpenApi.records_load (source : List Char) :
    (load source).Records Diagnostic.IsOfText := by
  rw [load]
  split
  · exact JsonSchema.records_load _ _
  · rw [loadYaml]
    split
    · exact .of_log_nil rfl
    · exact .of_log_nil rfl
    · refine (JsonSchema.records_collapseWarning _).bind fun _ _ => ?_
      split <;> exact .of_log_nil rfl

theorem GraphQL.isSkippedForText_block (h : block m = .ok finding) : IsSkippedForText finding := by
  rw [block] at h
  dsimp only at h
  split at h
  · cases h
    exact isSkippedForText_unbalanced _ _
  · split at h
    · cases h
      exact isSkippedForText_ok _
    · obtain ⟨_, _, h⟩ := bind_eq_ok.mp h
      cases h
      exact isSkippedForText_ok _

theorem Sql.isSkippedForText_parenthesized {make : List Char → List Char → Except Fault Declaration}
    {place : Nat} (h : parenthesized m make = .ok (place, finding)) : IsSkippedForText finding := by
  rw [parenthesized] at h
  split at h
  · cases h
    exact isSkippedForText_unbalanced _ _
  · obtain ⟨_, _, h⟩ := bind_eq_ok.mp h
    cases h
    exact isSkippedForText_ok _

theorem Zod.records_procedures (cs : List Char) :
    (procedures cs).Records Diagnostic.IsOfText := by
  rw [procedures]
  split
  · exact .of_log_nil rfl
  · split
    · refine Records.bind (fun d hd => ?_) fun _ _ => .of_log_nil rfl
      rw [mem_singleton.mp hd]
      exact .inl rfl
    · exact .of_log_nil rfl

/-- Reading a document tells of its text only. -/
theorem Grammar.records_extract (g : Grammar) (source : List Char) :
    (g.extract source).Records Diagnostic.IsOfText := by
  cases g with
  | typeScript =>
    refine Records.lift_bind fun found hfound => ?_
    refine (Document.records_report ?_).bind fun _ _ => .of_log_nil rfl
    exact TypeScript.isSkippedForText_findingsFrom hfound (by simp)
  | jsonSchema =>
    refine (JsonSchema.records_load _ source).bind fun es _ => ?_
    exact Records.lift_bind fun _ _ => Records.lift_bind fun _ _ => Records.lift_bind fun _ _ =>
      .of_log_nil rfl
  | openApi =>
    refine (OpenApi.records_load source).bind fun es _ => ?_
    exact Records.lift_bind fun _ _ => Records.lift_bind fun _ _ => .of_log_nil rfl
  | graphQL =>
    refine (Document.records_readAll (fun head place finding h => ?_) _).bind fun _ _ =>
      .of_log_nil rfl
    obtain ⟨_, hblock, h⟩ := bind_eq_ok.mp h
    cases h
    exact GraphQL.isSkippedForText_block hblock
  | sql =>
    have hall (make : List Char → List Char → Except Fault Declaration)
        (heads : List Text.Pattern.Found) :
        (Document.readAll heads fun m => Sql.parenthesized m make).Records Diagnostic.IsOfText :=
      Document.records_readAll (fun _ _ _ h => Sql.isSkippedForText_parenthesized h) heads
    exact (hall _ _).bind fun _ _ => (hall _ _).bind fun _ _ => .of_log_nil rfl
  | prisma =>
    refine (Document.records_report fun f hf => ?_).bind fun _ _ =>
      Records.lift_bind fun _ _ => .of_log_nil rfl
    obtain ⟨m, _, rfl⟩ := mem_map.mp hf
    rw [Prisma.block]
    split
    · exact isSkippedForText_unbalanced _ _
    · exact isSkippedForText_ok _
  | zod =>
    exact Records.lift_bind fun _ _ => (Zod.records_procedures _).bind fun _ _ => .of_log_nil rfl

/-! ### What is told in the end -/

/-- Warnings about numbers are passed on as they are. -/
theorem Progress.mem_afterAll {p : Progress} {log : List Mapping.Event} {d : Diagnostic}
    (hd : d.problem = .numericRange) : d ∈ (p.afterAll log).2 ↔ .warning d ∈ log := by
  induction log generalizing p with
  | nil => simp
  | cons e log ih =>
    have hone : d ∈ (p.after e).2 ↔ .warning d = e := by
      cases e with
      | warning w => simp [after]
      | depthCut limit declaration =>
        have hcut : d ≠ .depthExceeded limit declaration := by
          rintro rfl
          cases hd
        simp only [after]
        split <;> simp [hcut]
      | _ => simp [after]
    rw [afterAll_cons, mem_append, mem_cons, hone, ih]

def WrittenValue.scalar? (w : WrittenValue) : Option (ValueRole × Scalar) :=
  match w.value with
  | .scalar s => some (w.role, s)
  | _ => none

theorem WrittenValue.scalar?_eq_some {w : WrittenValue} {role : ValueRole} {s : Scalar} :
    w.scalar? = some (role, s) ↔ w.role = role ∧ w.value = .scalar s := by
  obtain ⟨role', v⟩ := w
  cases v <;> simp [scalar?]

namespace Target

/-- Defaults of fields are written. -/
def writesDefaults : Target → Bool
  | typeScript => false
  | _ => true

/-- The text of a value, in targets that write values as literals of a language. -/
def valueText? : Target → Option (Value → Except Fault String)
  | zod | zodModel | trpc | typeScript => some Literal.exactScript
  | jsonSchema | openApi => some Literal.json
  | prisma | prompt => none

/-- A value is written as an integer, which may be marked as a big one. -/
def WritesInteger (t : Target) (v : Value) (i : Int) : Prop :=
  ∃ text, t.valueText? = some text ∧ ∃ mark ∈ ["", "n"], text v = .ok (intText i ++ mark)

end Target

namespace Conversion

variable {c : Conversion} {source : List Char} {output : String}

/-- The mapping of a document to expressions with their values. -/
def valuesOf (c : Conversion) (doc : Document) : Mapping (Noted WrittenValue c.target.Expression) :=
  (c.mappingOf doc).valuing c.target.writesDefaults

/-- The output is printed from these declarations. -/
structure Writes (c : Conversion) (doc : Document)
    (mds : List (MappedDeclaration (Noted WrittenValue c.target.Expression))) (output : String) :
    Prop where
  mapped : ((c.valuesOf doc).inOrder c.target.isOrdered (c.settings.budgetAt 0)).result = .ok mds
  emitted : ∃ setting,
    c.target.emit setting (mds.map (MappedDeclaration.map Noted.expression)) = .ok output

/-- What a conversion that succeeds has read, written and told. -/
theorem writes_of_run (h : (c.run source).result = .ok output) :
    ∃ doc mds, (c.grammar.extract source).result = .ok doc ∧ c.Writes doc mds output ∧
      (c.run source).log = (c.grammar.extract source).log ++
        (duplicateWarnings doc.catalogue ++
          (({} : Progress).afterAll
            ((c.valuesOf doc).inOrder c.target.isOrdered (c.settings.budgetAt 0)).log).2) := by
  rw [run] at h ⊢
  split at h
  · cases h
  rename_i hlength
  rw [if_neg hlength]
  obtain ⟨doc, hdoc, h⟩ := result_bind_eq_ok.mp h
  split at h
  · cases h
  rename_i hempty
  rw [Logged.log_bind hdoc, if_neg hempty]
  have hvalues : (c.mappingOf doc).inOrder c.target.isOrdered (c.settings.budgetAt 0) =
      List.map (MappedDeclaration.map Noted.expression) <$>
        (c.valuesOf doc).inOrder c.target.isOrdered (c.settings.budgetAt 0) :=
    Mapping.inOrder_map (m := c.valuesOf doc) (Renderer.noting_hom _ _) _ _
  have hprint : c.print doc = ⟨((c.mappingOf doc).inOrder c.target.isOrdered
        (c.settings.budgetAt 0)).result.bind (c.target.emit _),
      duplicateWarnings doc.catalogue ++ (({} : Progress).afterAll
        ((c.mappingOf doc).inOrder c.target.isOrdered (c.settings.budgetAt 0)).log).2⟩ := rfl
  rw [hprint, hvalues] at h ⊢
  obtain ⟨plain, hplain, hemit⟩ := bind_eq_ok.mp h
  rw [Logged.result_map] at hplain
  obtain ⟨mds, hmds, rfl⟩ := map_eq_ok.mp hplain
  exact ⟨doc, mds, hdoc, ⟨hmds, _, hemit⟩, by rw [Logged.log_map]⟩

/-- The values that are written, without those that are collections. -/
def writtenScalars (c : Conversion) (source : List Char) : Option (List (ValueRole × Scalar)) :=
  (c.grammar.extract source).result.toOption.bind fun doc =>
    ((c.valuesOf doc).inOrder c.target.isOrdered (c.settings.budgetAt 0)).result.toOption.map
      fun mds => (mds.flatMap fun md => md.expression.notes).filterMap WrittenValue.scalar?

theorem Writes.filterMap_scalar?_eq {doc : Document}
    {mds : List (MappedDeclaration (Noted WrittenValue c.target.Expression))}
    {vs : List (ValueRole × Scalar)} (hdoc : (c.grammar.extract source).result = .ok doc)
    (hwrites : c.Writes doc mds output) (h : c.writtenScalars source = some vs) :
    (mds.flatMap fun md => md.expression.notes).filterMap WrittenValue.scalar? = vs := by
  rw [writtenScalars, hdoc, Except.toOption, Option.bind_some, hwrites.mapped] at h
  cases h
  rfl

/-- It is told that an integer is out of range. -/
def ToldOf (warnings : List Diagnostic) (i : Int) : Prop :=
  ∃ name, .numericRange (intText i) name ∈ warnings

/-- An integer is one of the literals and members that are written. -/
def StandsIn {ε : Type} (mds : List (MappedDeclaration (Noted WrittenValue ε))) (i : Int) : Prop :=
  ∃ md ∈ mds, ∃ w ∈ md.expression.notes, w.role ≠ .fieldDefault ∧ w.value = .int i

theorem mem_warnings_convert {collected : Collector} {d : Diagnostic} :
    d ∈ (c.convert collected source).1.warnings ↔
      d ∈ collected.warnings ∨ d ∈ (c.run source).log ∧ d.severity = .warning := by
  have hwarnings : (c.convert collected source).1.warnings =
      (collected.add (c.run source).log).warnings := by
    simp only [convert]
    split <;> rfl
  simp [hwarnings, Collector.warnings, Collector.add]

/-- Of the integers out of range a conversion tells those that it writes as literals or members. -/
theorem told_iff {doc : Document}
    {mds : List (MappedDeclaration (Noted WrittenValue c.target.Expression))}
    (hwrites : c.Writes doc mds output)
    (hlog : (c.run source).log = (c.grammar.extract source).log ++
      (duplicateWarnings doc.catalogue ++ (({} : Progress).afterAll
        ((c.valuesOf doc).inOrder c.target.isOrdered (c.settings.budgetAt 0)).log).2))
    {i : Int} (hi : safeIntegerMax < i.natAbs) :
    ToldOf (c.run source).log i ↔ StandsIn mds i := by
  have hread (name : Scalar) : .numericRange (intText i) name ∉ (c.grammar.extract source).log :=
    fun hmem => by rcases c.grammar.records_extract source _ hmem with h | h <;> cases h
  have hduplicate (name : Scalar) : .numericRange (intText i) name ∉
      duplicateWarnings doc.catalogue := fun hmem => by
    obtain ⟨_, _, h⟩ := mem_map.mp hmem
    cases congrArg Diagnostic.problem h
  have hwarned := Mapping.warned_iff (m := c.mappingOf doc) (Catalogue.names_ofList_nodup _)
    hwrites.mapped (intText i)
  have hvalue (w : WrittenValue) : w.IsChecked ∧ w.value.display = intText i ↔
      w.role ≠ .fieldDefault ∧ w.value = .int i := by
    constructor
    · rintro ⟨⟨hrole, hlarge⟩, hdisplay⟩
      obtain ⟨j, hj⟩ := exists_int_of_isUnsafeInteger hlarge
      rw [hj] at hdisplay ⊢
      exact ⟨hrole, congrArg Value.int (intText_injective hdisplay)⟩
    · rintro ⟨hrole, hv⟩
      rw [WrittenValue.IsChecked, hv]
      exact ⟨⟨hrole, decide_eq_true hi⟩, rfl⟩
  simp only [hvalue] at hwarned
  rw [StandsIn, ← hwarned, ToldOf, hlog]
  simp only [mem_append, hread, hduplicate, false_or]
  exact exists_congr fun name => Progress.mem_afterAll rfl

/-- The integers out of range that are told are those that stand as integers among the literals and
members, next to those that have been told before. So all that are written are told exactly if no
default and no number that is not kept as an integer brings in another one. -/
theorem integers_told_iff (c : Conversion) {collected : Collector} {source : List Char}
    (h : (c.convert collected source).1.diagnostic = none) :
    ∃ doc mds, (c.grammar.extract source).result = .ok doc ∧
      c.Writes doc mds (c.convert collected source).1.output ∧
      (∀ i, safeIntegerMax < i.natAbs → (ToldOf (c.convert collected source).1.warnings i ↔
        ToldOf collected.warnings i ∨ StandsIn mds i)) ∧
      ((∀ md ∈ mds, ∀ w ∈ md.expression.notes, ∀ i, c.target.WritesInteger w.value i →
          safeIntegerMax < i.natAbs → ToldOf (c.convert collected source).1.warnings i) ↔
        ∀ md ∈ mds, ∀ w ∈ md.expression.notes, ∀ i, c.target.WritesInteger w.value i →
          safeIntegerMax < i.natAbs → w.role = .fieldDefault ∨ w.value ≠ .int i →
            ToldOf collected.warnings i ∨ StandsIn mds i) := by
  obtain ⟨doc, mds, hdoc, hwrites, hlog⟩ := writes_of_run (result_of_convert h)
  have htold (i : Int) (hi : safeIntegerMax < i.natAbs) :
      ToldOf (c.convert collected source).1.warnings i ↔
        ToldOf collected.warnings i ∨ StandsIn mds i := by
    rw [← told_iff hwrites hlog hi, ToldOf, ToldOf, ToldOf, ← exists_or]
    exact exists_congr fun name => mem_warnings_convert.trans (or_congr_right (and_iff_left rfl))
  refine ⟨doc, mds, hdoc, hwrites, htold,
    fun hall md hmd w hw i hint hi _ => (htold i hi).mp (hall md hmd w hw i hint hi),
    fun hall md hmd w hw i hint hi => (htold i hi).mpr ?_⟩
  by_cases hstands : w.role ≠ .fieldDefault ∧ w.value = .int i
  · exact .inr ⟨md, hmd, w, hw, hstands⟩
  · exact hall md hmd w hw i hint hi (by rwa [not_and_or, not_not] at hstands)

end Conversion

namespace Converter

open Conversion

/-- A column whose default is out of range. -/
def largeDefault : List Char := "CREATE TABLE t (a BIGINT DEFAULT 9007199254740993);\n".toList

/-- The default is printed, and nothing is told. -/
theorem largeDefault_untold :
    ∃ c doc mds, find? "sql-to-zod" = some c ∧
      (c.conversion.convert {} largeDefault).1.diagnostic = none ∧
      (c.conversion.convert {} largeDefault).1.output =
        "import \x7b z \x7d from \"zod\";\n\nexport const TSchema = z.object(\x7b\n" ++
        "  a: z.bigint().optional().default(9007199254740993n),\n\x7d);\n" ++
        "export type T = z.infer<typeof TSchema>;\n" ∧
      c.conversion.Writes doc mds (c.conversion.convert {} largeDefault).1.output ∧
      (∃ md ∈ mds, ∃ w ∈ md.expression.notes,
        w.role = .fieldDefault ∧ c.conversion.target.WritesInteger w.value 9007199254740993) ∧
      ¬ToldOf (c.conversion.convert {} largeDefault).1.warnings 9007199254740993 := by
  have hc : find? "sql-to-zod" = some all[9] := rfl
  have hrun : (all[9].conversion.run largeDefault).result = .ok
      ("import \x7b z \x7d from \"zod\";\n\nexport const TSchema = z.object(\x7b\n" ++
        "  a: z.bigint().optional().default(9007199254740993n),\n\x7d);\n" ++
        "export type T = z.infer<typeof TSchema>;\n") := by decide +kernel
  have hvalues : all[9].conversion.writtenScalars largeDefault =
      some [(.fieldDefault, .int 9007199254740993)] := by decide +kernel
  obtain ⟨doc, mds, hdoc, hwrites, htold, _⟩ :=
    integers_told_iff all[9].conversion (diagnostic_of_run hrun {})
  have hwritten := hwrites.filterMap_scalar?_eq hdoc hvalues
  refine ⟨all[9], doc, mds, hc, diagnostic_of_run hrun {}, ?_, hwrites, ?_, fun h => ?_⟩
  · simp only [convert, hrun]
  · obtain ⟨w, hw, hscalar⟩ := mem_filterMap.mp (hwritten ▸ mem_singleton_self _)
    obtain ⟨md, hmd, hw⟩ := mem_flatMap.mp hw
    obtain ⟨hrole, hvalue⟩ := WrittenValue.scalar?_eq_some.mp hscalar
    refine ⟨md, hmd, w, hw, hrole, Literal.exactScript, rfl, "n", by simp, ?_⟩
    rw [hvalue]
    rfl
  · rcases (htold _ (by decide)).mp h with ⟨_, hnone⟩ | ⟨md, hmd, w, hw, hrole, hvalue⟩
    · cases hnone
    · have hall : w ∈ mds.flatMap fun md => md.expression.notes :=
        mem_flatMap.mpr ⟨md, hmd, hw⟩
      have hmem := mem_filterMap.mpr ⟨w, hall, WrittenValue.scalar?_eq_some.mpr ⟨rfl, hvalue⟩⟩
      rw [hwritten, mem_singleton] at hmem
      exact hrole (Prod.mk.inj hmem).1

end Converter

end Crosswalk
