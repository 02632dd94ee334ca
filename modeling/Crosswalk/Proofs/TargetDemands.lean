import Crosswalk.Proofs.Totality

/-!
What each target demands of a shape. A value that is written as a literal has to be one that JSON
can hold; a key, a pattern or a comment has to be text; some containers cannot do without arguments.
Main statement: the renderer of every target writes exactly the shapes that meet its demands.
-/

namespace Crosswalk

open List

/-! ### Values that JSON can hold -/

namespace Scalar

def isText (s : Scalar) : Bool := s.text?.isSome

/-- Dates and binary data have no JSON form, and neither have integers without a text. -/
def isJson : Scalar → Bool
  | .date _ | .moment _ | .bytes _ => false
  | s => s.hasText

theorem decides_asText (s : Scalar) : Decides (s.isText) (fun _ => True) s.asText := by
  cases s with
  | text s => exact Decides.done.of_iff (by simp [isText, text?])
  | _ => exact Decides.error.of_iff (by simp [isText, text?])

end Scalar

namespace Value

def isScalar : Value → Bool
  | .scalar _ => true
  | _ => false

/-- Values whose scalars all have a JSON form. -/
def isJson (v : Value) : Bool := v.scalars.all Scalar.isJson

@[simp] theorem isJson_scalar (s : Scalar) : (Value.scalar s).isJson = s.isJson := by
  simp [isJson, scalars]

theorem decides_printed (v : Value) : Decides (v.hasText) (fun _ => True) v.printed := by
  unfold printed
  split
  · exact ⟨‹_›, trivial⟩
  · exact ‹_›

end Value

namespace Json

theorem isSome_scalarText? (ascii : Bool) (s : Scalar) :
    (scalarText? ascii s).isSome = s.isJson := by
  cases s with
  | int i =>
    simp only [scalarText?, Scalar.isJson]
    cases (Scalar.int i).hasText <;> rfl
  | _ => rfl

theorem isSome_keyText? (k : Scalar) : (keyText? k).isSome = k.isJson := by
  rw [← isSome_scalarText? false k]
  cases k <;> rfl

mutual

theorem isSome_write? (l : Layout) (level : Nat) :
    ∀ v : Value, (l.write? level v).isSome = v.isJson
  | .scalar s => by rw [Layout.write?, isSome_scalarText?, Value.isJson_scalar]
  | .list vs => by
    rw [Layout.write?, Option.isSome_map, isSome_writeItems? l (level + 1) vs, Value.isJson,
      Value.scalars]
  | .map es => by
    rw [Layout.write?, Option.isSome_map, isSome_writeEntries? l (level + 1) es, Value.isJson,
      Value.scalars]

theorem isSome_writeItems? (l : Layout) (level : Nat) :
    ∀ vs : List Value,
      (l.writeItems? level vs).isSome = (Value.scalarsOfItems vs).all Scalar.isJson
  | [] => rfl
  | v :: vs => by
    rw [Layout.writeItems?, Value.scalarsOfItems, all_append, ← isSome_writeItems? l level vs,
      ← Value.isJson, ← isSome_write? l level v]
    cases l.write? level v <;> cases l.writeItems? level vs <;> rfl

theorem isSome_writeEntries? (l : Layout) (level : Nat) :
    ∀ es : List (Scalar × Value),
      (l.writeEntries? level es).isSome = (Value.scalarsOfEntries es).all Scalar.isJson
  | [] => rfl
  | (k, v) :: es => by
    rw [Layout.writeEntries?, Value.scalarsOfEntries, all_cons, all_append,
      ← isSome_writeEntries? l level es, ← isSome_keyText? k, ← Value.isJson,
      ← isSome_write? l level v]
    cases keyText? k <;> cases l.write? level v <;> cases l.writeEntries? level es <;> rfl

end

end Json

namespace Literal

theorem decides_json (v : Value) : Decides (v.isJson) (fun _ => True) (json v) := by
  have hline : (Json.line? v).isSome = v.isJson := Json.isSome_write? _ 0 v
  unfold json
  cases h : Json.line? v with
  | none => exact Decides.error.of_iff (by simp [← hline, h])
  | some s => exact Decides.done.of_iff (by simp [← hline, h])

theorem decides_number (v : Value) : Decides (v.hasText) (fun _ => True) (number v) := by
  unfold number
  split
  · split
    · exact Decides.done.of_iff (by simp [Scalar.hasText])
    · exact Value.decides_printed _
  · exact v.decides_printed

theorem decides_script (v : Value) : Decides (v.isJson) (fun _ => True) (script v) := by
  unfold script
  split
  case h_3 | h_4 => exact (decides_number _).of_iff (by simp [Scalar.isJson])
  case h_5 => exact decides_json v
  all_goals exact Decides.done.of_iff (by simp [Scalar.isJson, Scalar.hasText])

theorem decides_exactScript (v : Value) :
    Decides (v.isJson) (fun _ => True) (exactScript v) := by
  unfold exactScript
  split
  case isFalse => exact decides_script v
  case isTrue h =>
    unfold isUnsafeInteger at h
    split at h
    · exact ((Value.decides_printed _).map fun _ _ => trivial).of_iff (by simp [Scalar.isJson])
    · cases h

theorem decides_key (k : Scalar) : Decides (k.isText) (fun _ => True) (key k) :=
  k.decides_asText.map fun _ _ => trivial

theorem decides_regex (v : Value) :
    Decides (isTextValue v) (fun _ => True) (regex v) := by
  rcases v with s | vs | es
  · cases s <;> first | exact ⟨rfl, trivial⟩ | exact Bool.false_ne_true
  · exact Bool.false_ne_true
  · exact Bool.false_ne_true

end Literal

namespace Indent

/-- The unit can be taken `n` times, and that has a text. -/
def isShown (n : Nat) (i : Indent) : Bool :=
  match i.times n with
  | .ok v => v.hasText
  | .error _ => false

def isText (i : Indent) : Bool := Literal.isTextValue i.unit

theorem decides_shown (i : Indent) (n : Nat) :
    Decides (i.isShown n) (fun _ => True) (i.shown n) := by
  unfold shown isShown
  cases i.times n with
  | ok v => exact v.decides_printed
  | error f => exact Bool.false_ne_true

theorem decides_text (i : Indent) : Decides (i.isText) (fun _ => True) i.text := by
  obtain ⟨s | vs | es⟩ := i
  · cases s <;> first | exact ⟨rfl, trivial⟩ | exact Bool.false_ne_true
  · exact Bool.false_ne_true
  · exact Bool.false_ne_true

theorem isShown_of_isText {i : Indent} (h : i.isText) (n : Nat) : i.isShown n := by
  obtain ⟨s | vs | es⟩ := i
  · cases s <;> first | rfl | cases h
  · cases h
  · cases h

end Indent

namespace Target

/-! ### Zod -/

namespace Zod

/-- Formats are looked up; patterns, descriptions and bounds are written. -/
def admits (c : Constraint) : Bool :=
  match c.limit with
  | .format => c.value.isScalar
  | .pattern => Literal.isTextValue c.value
  | .description => c.value.isJson
  | limit => (boundCall? limit).isNone || c.value.hasText

def admitsField (f : Field) : Bool :=
  f.key.isText && f.default?.all Value.isJson && (!f.description.isTruthy || f.description.isJson)

def demands : Demands String where
  constraint := admits
  literal := Value.isJson
  enumeration := fun _ vs => vs.all Value.isJson
  emptyUnion := true
  bare := fun k => k != .record && k != .map && k != .set && k != .promise
  object := fun fs _ => fs.all admitsField

theorem decides_formatCall? (v : Value) :
    Decides (v.isScalar) (fun _ => True) (formatCall? v) := by
  rcases v with s | vs | es
  · cases s <;> exact ⟨rfl, trivial⟩
  · exact Bool.false_ne_true
  · exact Bool.false_ne_true

theorem decides_constrain (expr : String) (c : Constraint) :
    Decides (admits c) (fun _ => True) (constrain expr c) := by
  obtain ⟨limit, value⟩ := c
  cases limit with
  | format =>
    refine (decides_formatCall? value).bindTotal fun call? _ => ?_
    cases call? with
    | none => exact .done
    | some call =>
      dsimp only
      split <;> exact .done
  | pattern => exact (Literal.decides_regex value).bindTotal fun _ _ => .done
  | description => exact (Literal.decides_json value).bindTotal fun _ _ => .done
  | other name => exact ⟨rfl, trivial⟩
  | _ => exact (Literal.decides_number value).bindTotal fun _ _ => .done

theorem decides_constrainAll (cs : List Constraint) (expr : String) :
    Decides (∀ c ∈ cs, admits c) (fun _ => True) (constrainAll expr cs) := by
  induction cs generalizing expr with
  | nil => exact Decides.done.of_iff (by simp)
  | cons c cs ih =>
    rw [constrainAll, foldlM_cons]
    exact ((decides_constrain expr c).bind fun expr' _ => ih expr').of_iff (by simp)

theorem decides_literal (v : Value) :
    Decides (v.isJson) (fun _ => True) (literal v) := by
  unfold literal
  split
  · exact ⟨rfl, trivial⟩
  · exact (Literal.decides_exactScript v).bindTotal fun _ _ => .done

theorem decides_enumeration (vs : List Value) :
    Decides (vs.all Value.isJson) (fun _ => True) (enumeration vs) := by
  unfold enumeration
  split
  · exact ⟨rfl, trivial⟩
  split
  · exact ((Decides.mapM fun v _ => Literal.decides_json v).bindTotal
      fun _ _ => .done).of_iff all_eq_true.symm
  split
  · exact (decides_literal _).of_iff (by simp)
  · exact ((Decides.mapM fun v _ => decides_literal v).bindTotal
      fun _ _ => .done).of_iff all_eq_true.symm

theorem decides_fieldExpression (m : MappedField String) :
    Decides (m.field.default?.all Value.isJson ∧
        (m.field.description.isTruthy → m.field.description.isJson))
      (fun _ => True) (fieldExpression m) := by
  have hdescribe (expr : String) :
      Decides (m.field.description.isTruthy → m.field.description.isJson)
        (fun _ => True) (if m.field.description.isTruthy then
            (do return expr ++ ".describe(" ++ (← Literal.json m.field.description) ++ ")")
          else return expr) := by
    split
    · exact ((Literal.decides_json _).bindTotal fun _ _ => .done).of_iff (by simp [*])
    · exact Decides.done.of_iff (by simp [*])
  unfold fieldExpression
  cases m.field.default? with
  | none => exact (hdescribe _).of_iff (by simp)
  | some v => exact (Literal.decides_exactScript v).bind fun _ _ => hdescribe _

theorem decides_entry (m : MappedField String) :
    Decides (admitsField m.field) (fun _ => True) (entry m) := by
  refine ((Literal.decides_key m.field.key).bind fun _ _ =>
    (decides_fieldExpression m).bindTotal fun _ _ => .done).of_iff ?_
  cases h : m.field.description.isTruthy <;> simp [admitsField, and_assoc, h]

theorem decides_object (indent : Indent) (ms : List (MappedField String))
    (extra : Option (Additional String)) :
    Decides (demands.object (ms.map MappedField.field) (Additional.kind extra))
      (fun _ => True) (object indent ms extra false) := by
  refine (((Decides.mapM fun m _ => decides_entry m).bindTotal (Q := fun _ => True)
    fun entries _ => ?_).bindTotal fun body _ => ?_).of_iff (by simp [demands])
  · cases entries <;> exact .done
  · rcases extra with _ | _ | _ | t <;> exact .done

theorem decides_container (kind : Container) (es : List String) :
    Decides (es = [] → demands.bare kind) (fun _ => True) (container kind es) := by
  rcases es with _ | ⟨e, _ | ⟨e', es⟩⟩
  · cases kind <;> first | exact ⟨fun _ => rfl, trivial⟩ | exact fun h => Bool.false_ne_true (h rfl)
  · cases kind <;> exact ⟨nofun, trivial⟩
  · refine Decides.of_iff (p := True) ?_ (by simp)
    cases kind <;> exact .done

theorem decides_select (kind : Container) (name : String) (keys : List String) :
    Decides True (fun _ => True) (select kind name keys) := by
  have hmask : Decides True (fun _ => True) (mask (keys.map .text)) := by
    refine (Decides.mapM fun k hk => Decides.bindTotal (p := True) (P := fun _ => True) ?_
      fun _ _ => .done).bindTotal (fun _ _ => .done) |>.of_iff (by simp)
    obtain ⟨s, _, rfl⟩ := mem_map.mp hk
    exact .done
  cases kind with
  | pick | without => exact hmask.bindTotal fun _ _ => .done
  | _ => exact .done

theorem decided (coerced : Bool) (indent : Indent) :
    (renderer coerced indent).Decided demands fun _ => True where
  primitive := fun p cs _ => decides_constrainAll cs (primitive coerced p)
  literal := decides_literal
  enumeration := fun _ vs => (decides_enumeration vs).bindTotal fun _ _ => .done
  array := fun e cs _ _ => decides_constrainAll cs (call "z.array" [e])
  union := fun _ _ => ⟨fun _ => rfl, trivial⟩
  container := fun kind es _ => decides_container kind es
  select := fun g hg kind name keys => by
    cases hg
    exact decides_select kind name keys
  object := fun ms extra _ _ => (decides_object indent ms extra).of_iff (by simp [demands])

end Zod

/-! ### TypeScript -/

namespace TypeScript

variable (indent : Indent)

/-- What can stand in a comment. A line break is looked for in it, and it is split there: in a list
or a mapping that holds one, it cannot be. -/
def admitsComment : Value → Bool
  | .text _ => true
  | .list vs => !vs.any (Value.isText "\n") && (Value.list vs).hasText
  | .map es => !Value.hasKey "\n" es && (Value.map es).hasText
  | _ => false

def admitsField (f : Field) : Bool :=
  indent.isText && f.key.isText && (!f.description.isTruthy || admitsComment f.description)

/-- A type for further keys is indented like a field. -/
def admitsIndex : Option (Additional Unit) → Bool
  | some .anything => indent.isShown 1
  | some (.typed _) => indent.isText
  | _ => true

/-- Without fields and further keys the object is empty. -/
def isEmptyObject (fs : List Field) : Option (Additional Unit) → Bool
  | none | some .nothing => fs.isEmpty
  | _ => false

def demands : Demands String where
  constraint := fun _ => true
  literal := Value.isJson
  enumeration := fun _ vs => vs.all Value.isJson
  emptyUnion := true
  bare := fun _ => true
  object := fun fs extra =>
    isEmptyObject fs extra ||
      indent.isShown 1 && fs.all (admitsField indent) && admitsIndex indent extra

theorem decides_enumeration (vs : List Value) :
    Decides (vs.all Value.isJson) (fun _ => True) (enumeration vs) := by
  unfold enumeration
  split
  · exact ⟨rfl, trivial⟩
  · exact ((Decides.mapM fun v _ => Literal.decides_exactScript v).bindTotal
      fun _ _ => .done).of_iff all_eq_true.symm

theorem decides_docLines (pad : String) (v : Value) :
    Decides (admitsComment v) (fun _ => True) (docLines pad v) := by
  have hprinted : Decides (v.hasText) (fun _ => True)
      (v.printed.map fun s => [pad ++ "/** " ++ s ++ " */"]) :=
    v.decides_printed.map fun _ _ => trivial
  rcases v with s | vs | es
  · cases s <;> try exact Bool.false_ne_true
    simp only [docLines]
    split
    · exact ⟨rfl, trivial⟩
    · exact hprinted.of_iff (by simp [admitsComment, Scalar.hasText])
  · simp only [docLines, admitsComment]
    split
    · exact Decides.error.of_iff (by simp [*])
    · exact hprinted.of_iff (by simp [*])
  · simp only [docLines, admitsComment]
    split
    · exact Decides.error.of_iff (by simp [*])
    · exact hprinted.of_iff (by simp [*])

theorem decides_fieldLines (m : MappedField String) :
    Decides (admitsField indent m.field) (fun _ => True) (fieldLines indent m) := by
  have hshown : indent.isText → indent.isShown 1 := fun h => Indent.isShown_of_isText h 1
  unfold fieldLines
  cases h : m.field.description.isTruthy with
  | false =>
    refine ((indent.decides_shown 1).bind fun _ _ => indent.decides_text.bind fun _ _ =>
      (Literal.decides_key m.field.key).bindTotal fun _ _ => .done).of_iff ?_
    simp [admitsField, h]
    tauto
  | true =>
    refine ((indent.decides_shown 1).bind fun pad _ => (decides_docLines pad _).bind fun _ _ =>
      indent.decides_text.bind fun _ _ => (Literal.decides_key m.field.key).bindTotal fun _ _ =>
        .done).of_iff ?_
    simp [admitsField, h]
    tauto

theorem decides_indexLines (extra : Option (Additional String)) :
    Decides (admitsIndex indent (Additional.kind extra)) (fun _ => True)
      (indexLines indent extra) := by
  have hpad := indent.decides_shown 1
  rcases extra with _ | _ | _ | t
  · exact ⟨rfl, trivial⟩
  · exact hpad.bindTotal fun _ _ => .done
  · exact ⟨rfl, trivial⟩
  · exact (indent.decides_text.bind fun _ _ => hpad.bindTotal fun _ _ => .done).of_iff
      (and_iff_left_of_imp fun h => Indent.isShown_of_isText h 1)

/-- An object that is not empty is written line by line. -/
theorem decides_lines (ms : List (MappedField String))
    (extra : Option (Additional String)) :
    Decides ((indent.isShown 1 && (ms.map MappedField.field).all (admitsField indent) &&
        admitsIndex indent (Additional.kind extra))) (fun _ => True) (do
      let _ ← indent.shown 1
      let lines ← ms.mapM (fieldLines indent)
      let index ← indexLines indent extra
      return "\n".intercalate (["\x7b"] ++ lines.flatten ++ index ++ ["\x7d"])) :=
  ((indent.decides_shown 1).bind fun _ _ =>
    (Decides.mapM fun m _ => decides_fieldLines indent m).bind fun _ _ =>
      (decides_indexLines indent extra).bindTotal fun _ _ => .done).of_iff (by simp [and_assoc])

theorem decides_object (ms : List (MappedField String))
    (extra : Option (Additional String)) :
    Decides ((demands indent).object (ms.map MappedField.field) (Additional.kind extra))
      (fun _ => True) (object indent ms extra) := by
  have hlines := decides_lines indent ms extra
  rcases extra with _ | _ | _ | t
  case none | some.nothing =>
    cases ms with
    | nil => exact ⟨rfl, trivial⟩
    | cons m ms => exact hlines
  case some.anything | some.typed => exact hlines

theorem decided : (renderer indent).Decided (demands indent) fun _ => True where
  primitive := fun _ _ _ => ⟨fun _ _ => rfl, trivial⟩
  literal := Literal.decides_exactScript
  enumeration := fun _ vs => (decides_enumeration vs).bindTotal fun _ _ => .done
  array := fun _ _ _ _ => ⟨fun _ _ => rfl, trivial⟩
  union := fun _ _ => ⟨fun _ => rfl, trivial⟩
  container := fun kind _ _ => by cases kind <;> exact ⟨fun _ => rfl, trivial⟩
  select := nofun
  object := fun ms extra _ _ => (decides_object indent ms extra).of_iff (by simp [demands])

end TypeScript

/-! ### Prisma -/

namespace Prisma

variable (indent : Indent)

/-- An enumeration in a column is named after its declaration and its field. -/
def admitsEnumeration (site : Site) (vs : List Value) : Bool :=
  site.declaration.isText &&
    (!site.field.isTruthy ||
      site.field.isText && vs.all fun v => indent.isShown 1 && v.hasText)

def demands : Demands String where
  constraint := fun _ => true
  literal := fun _ => true
  enumeration := admitsEnumeration indent
  emptyUnion := true
  bare := fun _ => true
  object := fun _ _ => true

theorem decides_modelNameOf (name : Scalar) :
    Decides (name.isText) (fun _ => True) (modelNameOf name) := by
  cases name <;> first | exact ⟨rfl, trivial⟩ | exact Bool.false_ne_true

theorem decides_memberLines (vs : List Value) :
    Decides (vs.all fun v => indent.isShown 1 && v.hasText) (fun _ => True)
      (memberLines indent vs) :=
  ((Decides.mapM fun v (_ : v ∈ vs) => (indent.decides_shown 1).bind fun _ _ =>
    v.decides_printed.bindTotal fun _ _ => .done).bindTotal fun _ _ => .done).of_iff (by simp)

theorem decides_enumeration (site : Site) (vs : List Value) :
    Decides (admitsEnumeration indent site vs) (fun _ => True)
      (enumeration indent site vs) := by
  have hname (s : Scalar) : Decides (s.isText) (fun _ => True) (pascalName s) :=
    s.decides_asText.map fun _ _ => trivial
  unfold enumeration admitsEnumeration
  cases site.field.isTruthy with
  | false => exact ((hname site.declaration).bindTotal fun _ _ => .done).of_iff (by simp)
  | true =>
    exact ((decides_modelNameOf site.declaration).bind fun _ _ => (hname site.field).bind
      fun _ _ => (decides_memberLines indent vs).bindTotal fun _ _ => .done).of_iff (by simp)

theorem decided : (renderer indent).Decided (demands indent) fun _ => True where
  primitive := fun _ _ _ => ⟨fun _ _ => rfl, trivial⟩
  literal := fun _ => ⟨rfl, trivial⟩
  enumeration := decides_enumeration indent
  array := fun _ _ _ _ => ⟨fun _ _ => rfl, trivial⟩
  union := fun _ _ => ⟨fun _ => rfl, trivial⟩
  container := fun _ _ _ => ⟨fun _ => rfl, trivial⟩
  select := nofun
  object := fun _ _ _ _ => ⟨⟨rfl, fun _ _ => rfl⟩, trivial⟩

end Prisma

/-! ### Prompts -/

namespace Prompt

def admits (c : Constraint) : Bool :=
  match c.limit with
  | .format => c.value.isScalar && c.value.hasText
  | .pattern => c.value.hasText
  | limit => (boundWord? limit).isNone || c.value.hasText

/-- The sample of a union is that of its first member. A field without a sample shows its key. -/
def demands : Demands PromptType where
  constraint := admits
  literal := Value.isJson
  enumeration := fun _ vs => vs.all Value.hasText
  emptyUnion := false
  bare := fun kind => kind != .set
  object := fun _ _ => true
  member := fun key e => !e.sample.isNull || key.hasText

theorem decides_formatRule (v : Value) :
    Decides ((v.isScalar && v.hasText)) (fun _ => True) (formatRule v) := by
  unfold formatRule
  split
  case h_7 =>
    refine (v.decides_printed.bind (q := v.isScalar) fun _ _ => ?_).of_iff (by simp [and_comm])
    cases v with
    | scalar s => exact ⟨rfl, trivial⟩
    | _ => exact Bool.false_ne_true
  all_goals exact Decides.done.of_iff (by simp [Value.isScalar, Scalar.hasText])

theorem hasText_of_isZero {v : Value} (h : isZero v) : v.hasText := by
  obtain ⟨s, rfl⟩ : ∃ s, v = .scalar s := by
    cases v with
    | scalar s => exact ⟨s, rfl⟩
    | _ => cases h
  cases s with
  | int i =>
    have hi : i = 0 := by simpa [isZero, Scalar.same, Scalar.integer?] using h
    subst hi
    decide
  | _ => rfl

theorem decides_rule? (c : Constraint) :
    Decides (admits c) (fun _ => True) (rule? c) := by
  obtain ⟨limit, value⟩ := c
  have hbound (word : String) : Decides (value.hasText) (fun _ => True)
      ((Literal.number value).map fun n => some (word ++ ": " ++ n)) :=
    (Literal.decides_number value).map fun _ _ => trivial
  cases limit with
  | format => exact (decides_formatRule value).map fun _ _ => trivial
  | pattern => exact value.decides_printed.map fun _ _ => trivial
  | exclusiveMinimum =>
    simp only [rule?]
    split
    case isTrue h =>
      have hzero : isZero value := by simpa using h
      exact Decides.done.of_iff (by simp [admits, hasText_of_isZero hzero])
    case isFalse => exact hbound _
  | description | other name => exact ⟨rfl, trivial⟩
  | _ => exact hbound _

theorem decides_rules (cs : List Constraint) :
    Decides (∀ c ∈ cs, admits c) (fun _ => True) (rules cs) :=
  (Decides.mapM fun c _ => decides_rule? c).bindTotal fun _ _ => .done

theorem decides_enumeration (vs : List Value) :
    Decides (vs.all Value.hasText) (fun _ => True) (enumeration vs) :=
  ((Decides.mapM fun v _ => Value.decides_printed v).bindTotal fun _ _ => .done).of_iff
    all_eq_true.symm

theorem decides_sampleObject (ms : List (MappedField PromptType)) :
    Decides (∀ m ∈ ms, demands.member m.field.key m.expression) (fun _ => True)
      (sampleObject ms) := by
  refine (Decides.mapM fun m _ => Decides.bindTotal (P := fun _ => True) ?_
    fun _ _ => .done).bindTotal fun _ _ => .done
  unfold sampleFor
  split
  · refine ((Value.decides_printed _).map fun _ _ => trivial).of_iff ?_
    simp [demands, *]
  · exact Decides.done.of_iff (by simp [demands, *])

theorem decided : renderer.Decided demands fun _ => True where
  primitive := fun _ cs _ => (decides_rules cs).bindTotal fun _ _ => .done
  literal := fun v => (Literal.decides_script v).bindTotal fun _ _ => .done
  enumeration := fun _ vs => (decides_enumeration vs).bindTotal fun _ _ => .done
  array := fun _ cs _ _ => (decides_rules cs).bindTotal fun _ _ => .done
  union := fun es _ => by
    cases es with
    | nil => exact fun h => Bool.false_ne_true (h rfl)
    | cons e es => exact ⟨nofun, trivial⟩
  container := fun kind es _ => by
    cases es with
    | nil =>
      cases kind <;>
        first | exact ⟨fun _ => rfl, trivial⟩ | exact fun h => Bool.false_ne_true (h rfl)
    | cons e es => cases kind <;> exact ⟨nofun, trivial⟩
  select := nofun
  object := fun ms _ _ _ =>
    ((decides_sampleObject ms).bindTotal fun _ _ => .done).of_iff (by simp [demands])

end Prompt

/-! ### JSON Schema -/

namespace JsonSchema

open Value

variable {v : Value}

/-- A description is text, and an intersection a list. -/
def IsEntry (e : Scalar × Value) : Prop :=
  (e.1 = .text "description" → Literal.isTextValue e.2 = true) ∧
    (e.1 = .text "allOf" → ∃ vs, e.2 = .list vs)

/-- What types are written as: nodes that can be joined and described. -/
def IsNode (v : Value) : Prop := ∃ es, v = .map es ∧ ∀ e ∈ es, IsEntry e

/-- The description of a field is text. -/
def admitsField (f : Field) : Bool := !f.description.isTruthy || Literal.isTextValue f.description

def demands : Demands Value where
  constraint := fun _ => true
  literal := fun _ => true
  enumeration := fun _ _ => true
  emptyUnion := true
  bare := fun kind => kind != .set && kind != .map && kind != .record
  object := fun fs _ => fs.all admitsField

theorem isEntry_of_same (k k' : Scalar) (v : Value) (hsame : k'.same k)
    (h : IsEntry (k, v)) : IsEntry (k', v) :=
  ⟨fun hk => h.1 ((eq_text_iff_of_same hsame).mp hk),
    fun hk => h.2 ((eq_text_iff_of_same hsame).mp hk)⟩

theorem isEntry_of_ne {key : String} (hd : key ≠ "description") (ha : key ≠ "allOf") :
    IsEntry (.text key, v) := by
  simp [IsEntry, hd, ha]

theorem isNode_node {es : List (String × Value)} (h : ∀ e ∈ es, IsEntry (.text e.1, e.2)) :
    IsNode (node es) := by
  refine ⟨_, rfl, ?_⟩
  rintro e he
  obtain ⟨e', hmem, rfl⟩ := mem_map.mp he
  exact h e' hmem

theorem isEntry_set {key : String} {es : Node} (hes : ∀ e ∈ es, IsEntry e)
    (hv : IsEntry (.text key, v)) : ∀ e ∈ set key v es, IsEntry e :=
  forall_mem_insert isEntry_of_same hes hv

theorem isNode_constrain {es : List (String × Value)} {cs : List Constraint}
    (hes : ∀ e ∈ es, IsEntry (.text e.1, e.2)) (hcs : Described cs) : IsNode (constrain es cs) := by
  have hkeyword {c : Constraint} (hc : c ∈ cs) {keyword : String}
      (h : c.limit.keyword? = some keyword) : IsEntry (.text keyword, c.value) := by
    have hdescription := hcs c hc
    cases hl : c.limit <;> rw [hl] at h hdescription <;> cases h <;>
      first
        | exact isEntry_of_ne (by decide) (by decide)
        | exact ⟨fun _ => hdescription rfl, by simp⟩
  refine ⟨_, rfl, ?_⟩
  refine foldlRecOn (motive := fun done => ∀ e ∈ done, IsEntry e) cs _ ?_ ?_
  · exact forall_mem_map.mpr hes
  · intro done hdone c hc
    split
    · rename_i hk
      exact isEntry_set hdone (hkeyword hc hk)
    · exact hdone

theorem isEntry_primitive (p : Primitive) : ∀ e ∈ primitive p, IsEntry (.text e.1, e.2) := by
  cases p <;> simp [primitive, typed, IsEntry]

theorem decides_conjuncts (h : IsNode v) : Decides True (fun _ => True) (conjuncts v) := by
  obtain ⟨es, rfl, hes⟩ := h
  unfold conjuncts
  split
  -- Under the keyword of an intersection stands a list.
  case h_4 hlist _ _ heq =>
    cases heq
    obtain ⟨vs, rfl⟩ := (hes _ mem_cons_self).2 rfl
    exact absurd rfl (hlist vs)
  case h_5 heq => cases heq
  case h_9 hmap _ _ => exact absurd rfl (hmap es)
  all_goals exact .done

theorem decides_intersect {a b : Value} (ha : IsNode a) (hb : IsNode b) :
    Decides True IsNode (intersect a b) := by
  refine (decides_conjuncts ha).bindTotal fun vs _ => (decides_conjuncts hb).bindTotal
    fun ws _ => .ok (isNode_node ?_)
  simp [IsEntry]

theorem decides_nullable (h : IsNode v) : Decides True IsNode (nullable v) := by
  obtain ⟨es, rfl, hes⟩ := h
  have hnull : IsNode (nullable.orNull (.map es)) := isNode_node (by simp [IsEntry])
  simp only [nullable]
  split
  · split
    · exact .ok hnull
    · exact .ok ⟨_, rfl, isEntry_set hes (isEntry_of_ne (by decide) (by decide))⟩
  · exact .ok hnull

theorem decides_container (kind : Container) {vs : List Value} (hvs : ∀ v ∈ vs, IsNode v) :
    Decides (vs = [] → demands.bare kind) IsNode (container kind vs) := by
  cases hlast : vs.getLast? with
  | none =>
    cases getLast?_eq_none_iff.mp hlast
    cases kind <;>
      first
        | exact ⟨fun _ => rfl, isNode_node (by simp)⟩
        | exact fun h => Bool.false_ne_true (h rfl)
  | some last =>
    obtain ⟨v, rest, rfl⟩ :=
      exists_cons_of_ne_nil (ne_nil_of_mem (mem_of_getLast? hlast))
    refine Decides.of_iff (p := True) ?_ (by simp)
    cases kind <;> simp only [container, hlast] <;>
      first
        | exact .ok (hvs v mem_cons_self)
        | exact .ok (isNode_node (by simp [typed, IsEntry]))

/-- What describes the type of a field is text, so only its own description can be refused. -/
theorem decides_describe (f : Field) {es : Node} (hes : ∀ e ∈ es, IsEntry e) :
    Decides (admitsField f) (fun _ => True) (describe f es) := by
  have hinner : Literal.isTextValue ((lookup? "description" es).getD (.text "")) := by
    unfold lookup?
    cases hfind : es.find? fun e => e.1 == .text "description" with
    | none => rfl
    | some e =>
      have hkey : e.1 = .text "description" := by simpa using find?_some hfind
      exact (hes e (mem_of_find?_eq_some hfind)).1 hkey
  have htext {v : Value} (hv : Literal.isTextValue v) : ∃ s, v = .text s := by
    unfold Literal.isTextValue at hv
    split at hv
    · exact ⟨_, rfl⟩
    · cases hv
  unfold describe admitsField
  -- The description of the type counts only where the field has none.
  cases hown : f.description.isTruthy with
  | false =>
    obtain ⟨s, hs⟩ := htext hinner
    simp only [hs, Bool.false_eq_true, if_false]
    exact ⟨rfl, trivial⟩
  | true =>
    simp only [if_true]
    split
    · rename_i s hs
      rw [hs]
      exact ⟨rfl, trivial⟩
    · rename_i hother
      rw [if_pos hown]
      refine Decides.error.of_iff (q := (!true || Literal.isTextValue f.description)) ?_
      simp only [Bool.not_true, Bool.false_or, false_iff]
      intro h
      obtain ⟨s, hs⟩ := htext h
      exact hother s hs

theorem decides_property {m : MappedField Value} (h : IsNode m.expression) :
    Decides (admitsField m.field) (fun _ => True) (property m) := by
  obtain ⟨es, hes, hentries⟩ := h
  have hdefault (v : Value) : ∀ e ∈ set "default" v es, IsEntry e :=
    isEntry_set hentries (isEntry_of_ne (by decide) (by decide))
  simp only [property, hes, asNode]
  refine (decides_describe m.field ?_).bindTotal fun _ _ => .done
  split
  · exact hdefault _
  · exact hdefault _
  · exact hentries

theorem decides_object {ms : List (MappedField Value)} (hms : ∀ m ∈ ms, IsNode m.expression)
    (extra : Option (Additional Value)) :
    Decides (demands.object (ms.map MappedField.field) (Additional.kind extra)) IsNode
      (object ms extra) := by
  refine ((Decides.mapM fun m hm => (decides_property (hms m hm)).bindTotal
    fun _ _ => .done).bindTotal fun properties _ => .ok (isNode_node ?_)).of_iff (by simp [demands])
  rcases extra with _ | _ | _ | v <;> split <;> simp [typed, IsEntry]

theorem decided (start : String) (root : Scalar) :
    (renderer start root).Decided demands IsNode where
  unknown := fun _ => isNode_node (by simp)
  primitive := fun p _ hcs => ⟨fun _ _ => rfl, isNode_constrain (isEntry_primitive p) hcs⟩
  literal := fun v => by
    refine ⟨rfl, ?_⟩
    unfold literal
    split <;> exact isNode_node (by simp [typed, IsEntry])
  enumeration := fun _ vs => by
    refine ⟨rfl, ?_⟩
    unfold enumeration
    dsimp only
    split <;> exact isNode_node (by simp [typed, IsEntry])
  array := fun _ _ _ hcs => ⟨fun _ _ => rfl, isNode_constrain (by simp [typed, IsEntry]) hcs⟩
  tuple := fun _ _ => .ok (isNode_node (by simp [typed, IsEntry]))
  union := fun _ _ => ⟨fun _ => rfl, isNode_node (by simp [IsEntry])⟩
  intersect := fun _ _ => decides_intersect
  nullable := fun _ => decides_nullable
  optional := fun _ he => .ok he
  container := fun kind _ => decides_container kind
  select := nofun
  object := fun _ extra hms _ => (decides_object hms extra).of_iff (by simp [demands])
  reference := fun _ => isNode_node (by simp [IsEntry])
  deferred := fun _ => isNode_node (by simp [IsEntry])

end JsonSchema

/-- What a target demands of the shapes that it writes, under the indentation of a conversion. -/
def demands (t : Target) (indent : Indent) : Demands t.Expression :=
  match t with
  | zod | zodModel | trpc => Zod.demands
  | typeScript => TypeScript.demands indent
  | jsonSchema | openApi => JsonSchema.demands
  | prisma => Prisma.demands indent
  | prompt => Prompt.demands

/-- The expressions that a target writes for types. -/
def IsWritten (t : Target) : t.Expression → Prop :=
  match t with
  | jsonSchema | openApi => JsonSchema.IsNode
  | _ => fun _ => True

theorem decided_renderer (t : Target) (indent : Indent) (root : Scalar) :
    (t.renderer indent root).Decided (t.demands indent) t.IsWritten :=
  match t with
  | zod | trpc => Zod.decided false indent
  | zodModel => Zod.decided true indent
  | typeScript => TypeScript.decided indent
  | jsonSchema => JsonSchema.decided JsonSchema.definitionsStart root
  | openApi => JsonSchema.decided Router.componentsStart root
  | prisma => Prisma.decided indent
  | prompt => Prompt.decided

end Target

end Crosswalk
