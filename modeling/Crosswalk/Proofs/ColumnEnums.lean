import Crosswalk.Proofs.RouterModules

/-!
Enums of columns. A column whose type lists its values is typed with an enum that is named after the
model and the column and printed apart, next to the enums that are declared. Main statement: every
such enum is printed with the values of its column, and no two enums that are printed have one name,
exactly if the declared enums have different names, none of them has the name of the enum of a
column, and columns whose enums have one name have the same values.
-/

namespace Crosswalk

open List

variable {d : Declaration} {indent : Indent} {vs : List Value} {budget : Nat} {s : Settings}
  {e : String}

theorem eq_map_of_mapM {α β : Type} {f : α → Except Fault β} {g : α → β}
    (hf : ∀ a b, f a = .ok b → b = g a) {as : List α} {bs : List β} (h : as.mapM f = .ok bs) :
    bs = as.map g := by
  have hall := forall₂_of_mapM h
  clear h
  induction hall with
  | nil => rfl
  | cons hab _ ih => rw [map_cons, hf _ _ hab, ← ih]

/-! ### Tables -/

namespace Sql

variable {cs : List Char}

theorem ne_nil_of_columnName? {name rest : List Char} (h : columnName? cs = some (name, rest)) :
    name ≠ [] := by
  have hquoted {close : Char} {cs : List Char} (h : quotedName? close cs = some (name, rest)) :
      name ≠ [] := by
    unfold quotedName? at h
    dsimp only at h
    split at h
    case isTrue => cases h
    case isFalse hne =>
      split at h
      · cases h
        simpa using hne
      · cases h
  unfold columnName? at h
  split at h
  · exact hquoted h
  · exact hquoted h
  · exact hquoted h
  · dsimp only at h
    split at h
    case isTrue => cases h
    case isFalse hne =>
      cases h
      simpa using hne

theorem name_ne_of_column? {c : Column} (h : column? cs = some c) : c.name ≠ "" := by
  obtain ⟨⟨name, rest⟩, hname, h⟩ := Option.bind_eq_some_iff.mp h
  dsimp only at h
  split at h
  case isTrue => cases h
  case isFalse =>
    cases h
    intro hempty
    exact ne_nil_of_columnName? hname (by simpa using congrArg String.toList hempty)

theorem name_ne_of_mem_foldl_add {parts : List (List Char)} {t : TableParts}
    (h : ∀ c ∈ t.columns, c.name ≠ "") :
    ∀ c ∈ (parts.foldl TableParts.add t).columns, c.name ≠ "" := by
  induction parts generalizing t with
  | nil => exact h
  | cons part parts ih =>
    apply ih
    unfold TableParts.add
    split
    · dsimp only
      split
      · exact h
      · split <;> exact h
    · intro c hc
      rcases mem_append.mp hc with hc | hc
      · exact h c hc
      · exact name_ne_of_column? (Option.mem_toList.mp hc)

/-- A field that is read from a column. -/
structure IsColumn (f : Field) : Prop where
  key : ∃ k, f.key = .text k ∧ k ≠ ""
  arguments : f.arguments = []

/-- A declaration that is read from a table or an enumeration. -/
structure IsEntry (d : Declaration) : Prop where
  name : ∃ n, d.name = .text n
  bases : d.bases = []
  additional : d.additional? = none
  body : (∃ fields, d.body = .object fields ∧ ∀ f ∈ fields, IsColumn f) ∨
    ∃ raw, d.body = .enumeration raw

theorem isColumn_field {c : Column} (hc : c.name ≠ "") {primary unique : Bool} {f : Field}
    (h : c.field primary unique = .ok f) : IsColumn f := by
  obtain ⟨_, _, h⟩ := bind_eq_ok.mp h
  cases h
  exact ⟨⟨c.name, rfl, hc⟩, rfl⟩

theorem isEntry_table {name body : List Char} (h : table name body = .ok d) : IsEntry d := by
  obtain ⟨fields, hfields, h⟩ := bind_eq_ok.mp h
  cases h
  refine ⟨⟨_, rfl⟩, rfl, rfl, .inl ⟨fields, rfl, ?_⟩⟩
  have hnames : ∀ c ∈ ((splitTopNonempty tracked [','] body).foldl TableParts.add {}).columns,
      c.name ≠ "" := name_ne_of_mem_foldl_add (by simp)
  exact forall_mem_of_mapM hfields fun c hc f hf => isColumn_field (hnames c hc) hf

theorem isEntry_enumeration {name body : List Char} (h : enumeration name body = .ok d) :
    IsEntry d := by
  cases h
  exact ⟨⟨_, rfl⟩, rfl, rfl, .inr ⟨_, rfl⟩⟩

theorem isEntry_extract {source : List Char} {doc : Document}
    (h : (extract source).result = .ok doc) : ∀ d ∈ doc.declarations, IsEntry d :=
  forall_extract (fun _ _ _ => isEntry_enumeration) (fun _ _ _ => isEntry_table) h

/-- The shapes of column types. -/
inductive ColumnShape : Shape → Prop
  | enumeration (vs : List Value) : ColumnShape (.enumeration vs)
  | array (element : List Char) : ColumnShape (.array (.text element) [])
  | primitive (p : Primitive) (cs : List Constraint) : ColumnShape (.primitive p cs)
  | reference (name : String) : ColumnShape (.reference name)
  | unknown (text : String) : ColumnShape (.unknown text)

theorem columnShape_primitive? {s : Shape} (h : primitive? cs = .ok (some s)) : ColumnShape s := by
  simp only [primitive?] at h
  split at h
  · cases h
  split at h
  · cases h
  split at h
  · split at h
    · split at h <;> cases h
      exact .primitive _ _
    · cases h
      exact .primitive _ _
  all_goals
    cases h
    exact .primitive _ _

theorem columnShape_classify {s : Shape} (h : classify cs = .ok s) : ColumnShape s := by
  simp only [classify] at h
  split at h
  · obtain ⟨vs, _, h⟩ := bind_eq_ok.mp h
    cases h
    exact .enumeration vs
  split at h
  · cases h
    exact .array _
  split at h
  · cases h
    exact .primitive _ _
  obtain ⟨found, hfound, h⟩ := bind_eq_ok.mp h
  split at h
  · cases h
    exact columnShape_primitive? hfound
  · split at h <;> cases h
    · exact .reference _
    · exact .unknown _

/-- What is read at places that are in order. -/
theorem result_extract {source : List Char} {enums tables : List (Nat × Declaration)}
    (henums : (Document.readAll (enumHead.all (commentMarks.strip source)) fun m =>
      parenthesized m enumeration).result = .ok enums)
    (htables : (Document.readAll (tableHead.all (commentMarks.strip source)) fun m =>
      parenthesized m table).result = .ok tables)
    (hplaces : ((enums ++ tables).map Prod.fst).Pairwise (· ≤ ·)) :
    (extract source).result = .ok { declarations := (enums ++ tables).map Prod.snd } := by
  refine result_bind_eq_ok.mpr ⟨enums, henums, ?_⟩
  refine result_bind_eq_ok.mpr ⟨tables, htables, ?_⟩
  have hsorted : (enums ++ tables).mergeSort (fun a b => a.1 ≤ b.1) = enums ++ tables :=
    mergeSort_of_pairwise (by simpa using pairwise_map.mp hplaces)
  rw [Document.inOrder, hsorted]
  rfl

/-- The values that a column type lists, within a number of levels, and how many arrays are around
them. -/
def valuesOf? : Nat → List Char → Option (Nat × List Value)
  | 0, _ => none
  | levels + 1, cs =>
    match classify cs with
    | .ok (.enumeration vs) => some (0, vs)
    | .ok (.array (.text element) _) => (valuesOf? levels element).map fun p => (p.1 + 1, p.2)
    | _ => none

end Sql

/-! ### Enums that are printed -/

namespace Target.Prisma

/-- An enum with its members, and what follows them. -/
structure EnumBlock where
  name : String
  members : List String
  note : String := ""
deriving Repr, DecidableEq

namespace EnumBlock

def text (pad : String) (b : EnumBlock) : String :=
  "enum " ++ b.name ++ " \x7b\n" ++ String.join (b.members.map fun m => pad ++ m ++ "\n") ++
    b.note ++ "\x7d"

def block (pad : String) (b : EnumBlock) : Block := ⟨b.name, b.text pad⟩

/-- Set an enum: a name that is present keeps its place. -/
def put (bs : List EnumBlock) (b : EnumBlock) : List EnumBlock :=
  match bs with
  | [] => [b]
  | c :: cs => if c.name == b.name then b :: cs else c :: put cs b

def putAll (bs : List EnumBlock) : List EnumBlock := bs.foldl put []

theorem map_block_put (pad : String) (bs : List EnumBlock) (b : EnumBlock) :
    (put bs b).map (block pad) = Progress.putBlock (b.block pad) (bs.map (block pad)) := by
  induction bs with
  | nil => rfl
  | cons c cs ih =>
    rw [put, map_cons, Progress.putBlock, ← ih]
    by_cases h : (c.name == b.name)
    · rw [if_pos h, if_pos (show ((c.block pad).name == (b.block pad).name) from h)]
      rfl
    · rw [if_neg h, if_neg (show ¬((c.block pad).name == (b.block pad).name) from h)]
      rfl

theorem map_block_foldl (pad : String) (bs acc : List EnumBlock) :
    (bs.foldl put acc).map (block pad) =
      (bs.map (block pad)).foldl (fun cs b => Progress.putBlock b cs) (acc.map (block pad)) := by
  induction bs generalizing acc with
  | nil => rfl
  | cons b bs ih => rw [foldl_cons, ih, map_block_put, map_cons, foldl_cons]

theorem map_name_put (bs : List EnumBlock) (b : EnumBlock) :
    (put bs b).map name =
      if b.name ∈ bs.map name then bs.map name else bs.map name ++ [b.name] := by
  induction bs with
  | nil => rfl
  | cons c cs ih =>
    rw [put]
    by_cases h : c.name = b.name
    · simp [h]
    · have hne : ¬b.name = c.name := fun heq => h heq.symm
      rw [if_neg (by simpa using h), map_cons, map_cons, ih]
      by_cases hmem : b.name ∈ cs.map name
      · rw [if_pos hmem, if_pos (mem_cons_of_mem _ hmem)]
      · rw [if_neg hmem, if_neg (by simpa [hne] using hmem), cons_append]

theorem mem_of_mem_put {bs : List EnumBlock} {b c : EnumBlock} (h : c ∈ put bs b) :
    c ∈ bs ∨ c = b := by
  induction bs with
  | nil => exact .inr (mem_singleton.mp h)
  | cons a as ih =>
    rw [put] at h
    split at h
    · rcases mem_cons.mp h with rfl | h
      · exact .inr rfl
      · exact .inl (mem_cons_of_mem _ h)
    · rcases mem_cons.mp h with rfl | h
      · exact .inl mem_cons_self
      · exact (ih h).imp_left (mem_cons_of_mem _)

/-- What is left of enums that are set one after the other: each name once, with one of the enums
that have it. -/
theorem mem_foldl_put (bs acc : List EnumBlock) :
    (∀ c ∈ bs.foldl put acc, c ∈ acc ∨ c ∈ bs) ∧
      (∀ n, n ∈ (bs.foldl put acc).map name ↔ n ∈ acc.map name ∨ n ∈ bs.map name) ∧
      ((acc.map name).Nodup → ((bs.foldl put acc).map name).Nodup) := by
  induction bs generalizing acc with
  | nil => simp
  | cons b bs ih =>
    obtain ⟨hmem, hnames, hnodup⟩ := ih (put acc b)
    rw [foldl_cons]
    refine ⟨?_, ?_, ?_⟩
    · intro c hc
      rcases hmem c hc with hc | hc
      · rcases mem_of_mem_put hc with hc | rfl
        · exact .inl hc
        · exact .inr mem_cons_self
      · exact .inr (mem_cons_of_mem _ hc)
    · intro n
      rw [hnames, map_name_put, map_cons, mem_cons]
      by_cases hb : b.name ∈ acc.map name
      · rw [if_pos hb]
        refine ⟨fun h => h.imp_right .inr, ?_⟩
        rintro (h | rfl | h)
        · exact .inl h
        · exact .inl hb
        · exact .inr h
      · rw [if_neg hb, mem_append, mem_singleton, or_assoc]
    · intro hacc
      apply hnodup
      rw [map_name_put]
      split
      · exact hacc
      · rename_i hb
        rw [nodup_append]
        exact ⟨hacc, by simp, by rintro a ha _ hb' rfl; exact hb (mem_singleton.mp hb' ▸ ha)⟩

/-- Enums that can be printed side by side: those that are declared, and those of columns. -/
structure Separate (declared columns : List EnumBlock) : Prop where
  nodup : (declared.map name).Nodup
  apart : ∀ a ∈ declared, ∀ b ∈ columns, a.name ≠ b.name
  agree : ∀ a ∈ columns, ∀ b ∈ columns, a.name = b.name → a.members = b.members

theorem separate_iff {declared columns : List EnumBlock} :
    ((∀ b ∈ columns, ∃ c ∈ declared ++ putAll columns, c.name = b.name ∧ c.members = b.members) ∧
        ((declared ++ putAll columns).map name).Nodup) ↔
      Separate declared columns := by
  obtain ⟨hmem, hnames, hnodup⟩ := mem_foldl_put columns []
  have hfrom : ∀ c ∈ putAll columns, c ∈ columns := fun c hc =>
    (hmem c hc).resolve_left (not_mem_nil)
  have hprinted : ∀ b ∈ columns, ∃ c ∈ putAll columns, c.name = b.name := by
    intro b hb
    exact mem_map.mp ((hnames b.name).mpr (.inr (mem_map_of_mem hb)))
  constructor
  · rintro ⟨hkept, hall⟩
    have hinj := inj_on_of_nodup_map hall
    rw [map_append, nodup_append] at hall
    refine ⟨hall.1, ?_, ?_⟩
    · intro a ha b hb heq
      obtain ⟨c, hc, hname⟩ := hprinted b hb
      exact hall.2.2 _ (mem_map_of_mem ha) _ (mem_map_of_mem hc) (heq.trans hname.symm)
    · intro a ha b hb heq
      obtain ⟨c, hc, hcname, hcmembers⟩ := hkept a ha
      obtain ⟨d, hd, hdname, hdmembers⟩ := hkept b hb
      have hsame : c = d := hinj hc hd (hcname.trans (heq.trans hdname.symm))
      rw [← hcmembers, ← hdmembers, hsame]
  · intro h
    constructor
    · intro b hb
      obtain ⟨c, hc, hname⟩ := hprinted b hb
      exact ⟨c, mem_append_right _ hc, hname, h.agree c (hfrom c hc) b hb hname⟩
    · rw [map_append, nodup_append]
      refine ⟨h.nodup, hnodup nodup_nil, ?_⟩
      rintro _ ha _ hb rfl
      obtain ⟨a, ha, hname⟩ := mem_map.mp ha
      obtain ⟨b, hb, hname'⟩ := mem_map.mp hb
      exact h.apart a ha b (hfrom b hb) (hname.trans hname'.symm)

end EnumBlock

/-- What stands before the members of an enum. -/
def padOf (indent : Indent) : String := (indent.shown 1).toOption.getD ""

theorem memberLines_eq {lines : String} (h : memberLines indent vs = .ok lines) :
    lines = String.join ((vs.map enumMember).map fun m => padOf indent ++ m ++ "\n") := by
  obtain ⟨texts, htexts, h⟩ := bind_eq_ok.mp h
  cases h
  rw [map_map, ← eq_map_of_mapM _ htexts]
  intro v text hv
  obtain ⟨pad, hpad, hv⟩ := bind_eq_ok.mp hv
  obtain ⟨_, _, hv⟩ := bind_eq_ok.mp hv
  cases hv
  rw [Function.comp_apply, padOf, hpad]
  rfl

/-- The name of the enum of a column. -/
def columnEnumName (table column : Scalar) : String :=
  modelName (table.text?.getD "") ++ Identifier.pascalCase (column.text?.getD "")

def columnEnum (table column : Scalar) (vs : List Value) : EnumBlock :=
  { name := columnEnumName table column, members := vs.map enumMember }

theorem enumeration_column {t f : String} (hf : f ≠ "") {bs : List Block}
    (h : enumeration indent ⟨.text t, .text f⟩ vs = .ok (e, bs)) :
    e = columnEnumName (.text t) (.text f) ∧
      bs = [(columnEnum (.text t) (.text f) vs).block (padOf indent)] := by
  rw [enumeration, if_pos (show (Scalar.text f).isTruthy by simpa [Scalar.isTruthy] using hf)] at h
  obtain ⟨model, hmodel, h⟩ := bind_eq_ok.mp h
  obtain ⟨column, hcolumn, h⟩ := bind_eq_ok.mp h
  obtain ⟨members, hmembers, h⟩ := bind_eq_ok.mp h
  obtain rfl : modelName t = model := Except.ok.inj hmodel
  obtain rfl : Identifier.pascalCase f = column := Except.ok.inj hcolumn
  obtain ⟨rfl, rfl⟩ := Prod.mk.inj (Except.ok.inj h)
  refine ⟨rfl, ?_⟩
  rw [memberLines_eq hmembers, EnumBlock.block, EnumBlock.text, columnEnum, String.append_empty]
  rfl

end Target.Prisma

/-! ### Blocks that mapping asks for -/

namespace Mapping

/-- The blocks that are asked for, one after the other. -/
def blocksIn (log : List Event) : List Block :=
  log.filterMap fun e => match e with
    | .block b => some b
    | _ => none

theorem blocksIn_append (log rest : List Event) :
    blocksIn (log ++ rest) = blocksIn log ++ blocksIn rest := filterMap_append

theorem blocks_afterAll (p : Progress) (log : List Event) :
    (p.afterAll log).1.blocks =
      (blocksIn log).foldl (fun cs b => Progress.putBlock b cs) p.blocks := by
  induction log generalizing p with
  | nil => rfl
  | cons e log ih =>
    rw [Progress.afterAll_cons]
    refine (ih _).trans ?_
    cases e with
    | reference name =>
      rw [Progress.after]
      split <;> rfl
    | depthCut limit declaration =>
      rw [Progress.after]
      split <;> rfl
    | _ => rfl

theorem blocksIn_bind {α β : Type} {x : Traced α} {f : α → Traced β} {b : β}
    (h : (x >>= f).result = .ok b) :
    ∃ a, x.result = .ok a ∧ (f a).result = .ok b ∧
      blocksIn (x >>= f).log = blocksIn x.log ++ blocksIn (f a).log := by
  obtain ⟨a, ha, hb⟩ := result_bind_eq_ok.mp h
  exact ⟨a, ha, hb, by rw [Logged.log_bind ha, blocksIn_append]⟩

theorem blocksIn_forM {α : Type} {f : α → Traced Unit} {g : α → List Block}
    (hf : ∀ a, (f a).result = .ok () ∧ blocksIn (f a).log = g a) (as : List α) :
    (as.forM f).result = .ok () ∧ blocksIn (as.forM f).log = as.flatMap g := by
  induction as with
  | nil => exact ⟨rfl, rfl⟩
  | cons a as ih =>
    have hcons : (a :: as).forM f = f a >>= fun _ => as.forM f := rfl
    rw [hcons]
    refine ⟨result_bind_eq_ok.mpr ⟨(), (hf a).1, ih.1⟩, ?_⟩
    rw [Logged.log_bind (hf a).1, blocksIn_append, (hf a).2, ih.2, flatMap_cons]

theorem blocksIn_mapM {α β : Type} {f : α → Traced β} {R : α → β → Prop} {g : α → List Block}
    {as : List α} (hf : ∀ a ∈ as, ∀ b, (f a).result = .ok b → R a b ∧ blocksIn (f a).log = g a)
    {bs : List β} (h : (as.mapM f).result = .ok bs) :
    Forall₂ R as bs ∧ blocksIn (as.mapM f).log = as.flatMap g := by
  induction as generalizing bs with
  | nil =>
    cases h
    exact ⟨.nil, rfl⟩
  | cons a as ih =>
    rw [forall_mem_cons] at hf
    rw [mapM_cons] at h ⊢
    obtain ⟨b, hb, h, hblocks⟩ := blocksIn_bind h
    obtain ⟨bs, hbs, h, hblocks'⟩ := blocksIn_bind h
    cases h
    obtain ⟨hR, hg⟩ := hf.1 b hb
    obtain ⟨ihall, ihblocks⟩ := ih hf.2 hbs
    refine ⟨.cons hR ihall, ?_⟩
    rw [hblocks, hblocks', hg, ihblocks, flatMap_cons]
    exact congrArg _ (append_nil _)

theorem blocksIn_checkRange (site : Site) (vs : List Value) :
    blocksIn (checkRange site vs).log = [] := by
  rw [checkRange_eq, blocksIn, filterMap_map]
  exact filterMap_eq_nil_iff.mpr fun _ _ => rfl

/-- Arrays around a type. -/
def brackets (n : Nat) : String := String.join (List.replicate n "[]")

theorem append_brackets (e : String) (n : Nat) :
    e ++ brackets n ++ "[]" = e ++ brackets (n + 1) := by
  rw [brackets, brackets, replicate_succ', String.join_append, String.append_assoc]
  rfl

section Tables

open Target.Prisma

variable {m : Mapping String} {known ancestors : List Scalar} {t f : String}

variable {fields : List Field}

theorem blocksIn_enumeration (hr : m.renderer = Target.Prisma.renderer indent) (hf : f ≠ "")
    (h : (m.enumeration ⟨.text t, .text f⟩ vs).result = .ok e) :
    e = columnEnumName (.text t) (.text f) ∧
      blocksIn (m.enumeration ⟨.text t, .text f⟩ vs).log =
        [(columnEnum (.text t) (.text f) vs).block (padOf indent)] := by
  obtain ⟨⟨expression, blocks⟩, hrendered, h, hblocks⟩ := blocksIn_bind h
  have hrecorded :=
    blocksIn_forM (f := fun b : Block => Logged.record (.block b)) (g := fun b => [b])
    (fun _ => ⟨rfl, rfl⟩) blocks
  obtain ⟨_, _, h, hblocks'⟩ := blocksIn_bind h
  cases h
  rw [hr] at hrendered
  obtain ⟨rfl, rfl⟩ := enumeration_column hf hrendered
  exact ⟨rfl, hblocks.trans (hblocks'.trans (by rw [hrecorded.2]; rfl))⟩

/-- An enumeration that is declared asks for nothing. -/
theorem blocksIn_named (hr : m.renderer = Target.Prisma.renderer indent) {declaration : Scalar}
    (h : (m.enumeration ⟨declaration, .text ""⟩ vs).result = .ok e) :
    blocksIn (m.enumeration ⟨declaration, .text ""⟩ vs).log = [] := by
  obtain ⟨⟨expression, blocks⟩, hrendered, h, hblocks⟩ := blocksIn_bind h
  obtain ⟨_, _, h, hblocks'⟩ := blocksIn_bind h
  rw [hr] at hrendered
  have hplain : Target.Prisma.enumeration indent ⟨declaration, .text ""⟩ vs =
    .ok (expression, blocks) := hrendered
  rw [Target.Prisma.enumeration, if_neg (show ¬(Scalar.text "").isTruthy by decide)] at hplain
  obtain ⟨_, _, hplain⟩ := bind_eq_ok.mp hplain
  cases hplain
  exact hblocks.trans hblocks'

/-- References ask for nothing where they are kept. -/
theorem blocksIn_mapReference (hi : m.inline = false) (site : Site) (budget : Nat) (name : String) :
    blocksIn (m.mapReference site known (budget + 1) ancestors name).log = [] := by
  rw [mapReference_succ]
  by_cases hk : .text name ∈ known
  · by_cases ho : .text name ∈ ancestors
    · rw [resolve_open hk ho]
      rfl
    · rw [resolve_named hk ho hi]
      rfl
  · rw [resolve_undeclared hk]
    rfl

/-- The type of a column asks for the enum of the values that it lists, and is typed with it. -/
theorem blocksIn_mapType (hg : m.grammar = .sql) (hr : m.renderer = Target.Prisma.renderer indent)
    (hi : m.inline = false) (hf : f ≠ "") {raw : Raw}
    (h : (m.mapType ⟨.text t, .text f⟩ known budget ancestors raw).result = .ok e) :
    blocksIn (m.mapType ⟨.text t, .text f⟩ known budget ancestors raw).log =
        ((Sql.valuesOf? budget raw.asText).map fun p =>
          (columnEnum (.text t) (.text f) p.2).block (padOf indent)).toList ∧
      ∀ n vs, Sql.valuesOf? budget raw.asText = some (n, vs) →
        e = columnEnumName (.text t) (.text f) ++ brackets n := by
  induction budget generalizing raw e with
  | zero => exact ⟨rfl, by simp [Sql.valuesOf?]⟩
  | succ budget ih =>
    rw [mapType_succ] at h ⊢
    obtain ⟨s, hs, h, hblocks⟩ := blocksIn_bind h
    rw [Logged.result_lift, hg] at hs
    have hclassify : Sql.classify raw.asText = .ok s := hs
    rw [hblocks, Sql.valuesOf?, hclassify]
    cases Sql.columnShape_classify hclassify with
    | enumeration vs =>
      obtain ⟨_, _, h, hshape⟩ := blocksIn_bind h
      obtain ⟨he, henum⟩ := blocksIn_enumeration hr hf h
      rw [blocksIn_checkRange, henum] at hshape
      refine ⟨hshape, ?_⟩
      rintro n ws ⟨⟩
      simpa [brackets] using he
    | array element =>
      obtain ⟨inner, hinner, h, hshape⟩ := blocksIn_bind h
      obtain ⟨hasked, htyped⟩ := ih hinner
      rw [Logged.result_lift, hr] at h
      cases h
      rw [hasked] at hshape
      refine ⟨hshape.trans ((append_nil _).trans ?_), ?_⟩
      · change _ = (Option.map _ (Option.map _ (Sql.valuesOf? budget element))).toList
        rw [Option.map_map]
        rfl
      · intro n vs hvs
        obtain ⟨⟨k, ws⟩, hws, heq⟩ := Option.map_eq_some_iff.mp hvs
        cases heq
        rw [htyped k ws hws, append_brackets]
    | primitive p cs => exact ⟨rfl, by simp⟩
    | reference name => exact ⟨blocksIn_mapReference hi _ _ _, by simp⟩
    | unknown text =>
      refine ⟨?_, by simp⟩
      rw [shape]
      split <;> rfl

/-- The enums of the columns of a table. -/
def columnEnums (levels : Nat) (d : Declaration) : List EnumBlock :=
  d.fields.filterMap fun f =>
    (Sql.valuesOf? levels f.type.asText).map fun p => columnEnum d.name f.key p.2

/-- A column is typed with its enum. -/
def Typed (levels : Nat) (table : Scalar) (m : MappedField String) : Prop :=
  ∀ n vs, Sql.valuesOf? levels m.field.type.asText = some (n, vs) →
    m.expression = columnEnumName table m.field.key ++ brackets n

/-- Columns are mapped one after the other. -/
theorem mapFields_eq_mapM {type : Field → Traced String} (h : ∀ f ∈ fields, f.arguments = []) :
    mapFields type fields = fields.mapM fun field => do
      return { field, expression := ← type field, arguments := [] } := by
  induction fields with
  | nil => rfl
  | cons f fields ih =>
    rw [forall_mem_cons] at h
    rw [mapFields_cons, h.1, mapFields, ih h.2, mapM_cons]
    simp only [bind_assoc, pure_bind]

theorem blocksIn_ownFields (hg : m.grammar = .sql) (hr : m.renderer = Target.Prisma.renderer indent)
    (hi : m.inline = false) (hfields : ∀ f ∈ fields, Sql.IsColumn f)
    {ms : List (MappedField String)}
    (h : (m.ownFields (.text t) budget ancestors fields).result = .ok ms) :
    Forall₂ (fun f m => m.field = f ∧ Typed budget (.text t) m) fields ms ∧
      blocksIn (m.ownFields (.text t) budget ancestors fields).log =
        fields.flatMap fun f => ((Sql.valuesOf? budget f.type.asText).map fun p =>
          (columnEnum (.text t) f.key p.2).block (padOf indent)).toList := by
  rw [ownFields, mapFields_eq_mapM fun f hf => (hfields f hf).arguments] at h ⊢
  refine blocksIn_mapM ?_ h
  intro f hf mapped hmapped
  obtain ⟨key, raw, optional, description, defaultText, attributes, arguments⟩ := f
  obtain ⟨⟨k, hkey, hk⟩, _⟩ := hfields _ hf
  cases hkey
  obtain ⟨expression, hexpression, h, hblocks⟩ := blocksIn_bind hmapped
  cases h
  obtain ⟨_, _, htype, hrecorded⟩ := blocksIn_bind hexpression
  obtain ⟨hasked, htyped⟩ := blocksIn_mapType hg hr hi hk htype
  refine ⟨⟨rfl, htyped⟩, hblocks.trans ?_⟩
  rw [hrecorded, hasked]
  exact append_nil _

/-- Nothing but its columns is mapped for a table. -/
theorem declaration_table {n : String} {attributes : List DeclarationAttribute} (budget : Nat)
    (ha : Declaration.additional? ⟨.text n, .object fields, [], attributes⟩ = none) :
    m.declaration budget [] ⟨.text n, .object fields, [], attributes⟩ = (do
      Logged.record (.enterDeclaration (.text n))
      let mapped ← m.ownFields (.text n) budget [.text n] fields
      let body ← Logged.lift (m.renderer.object mapped none true)
      return { declaration := ⟨.text n, .object fields, [], attributes⟩, expression := body,
               fields := mapped, body := some body }) := by
  rw [declaration]
  simp only [ha, mapAdditional, pure_bind, mapM_nil, nil_append, intersectAll,
    foldlM_nil]
  rfl

/-- A table asks for the enums of its columns. -/
theorem blocksIn_declaration (hg : m.grammar = .sql)
    (hr : m.renderer = Target.Prisma.renderer indent) (hi : m.inline = false) (hd : Sql.IsEntry d)
    {md : MappedDeclaration String} (h : (m.declaration budget [] d).result = .ok md) :
    (md.declaration = d ∧
        Forall₂ (fun f m => m.field = f ∧ Typed budget d.name m) d.fields md.fields) ∧
      blocksIn (m.declaration budget [] d).log =
        (columnEnums budget d).map (EnumBlock.block (padOf indent)) := by
  obtain ⟨⟨n, hname⟩, hbases, hadditional, hbody⟩ := hd
  obtain ⟨name, body, bases, attributes⟩ := d
  cases hname
  cases hbases
  rcases hbody with ⟨fields, hbody, hfields⟩ | ⟨raw, hbody⟩
  · cases hbody
    rw [declaration_table budget hadditional] at h ⊢
    obtain ⟨_, _, h, hentered⟩ := blocksIn_bind h
    obtain ⟨mapped, hmapped, h, hblocks⟩ := blocksIn_bind h
    obtain ⟨body, _, h, hrendered⟩ := blocksIn_bind h
    cases h
    obtain ⟨hall, hasked⟩ := blocksIn_ownFields hg hr hi hfields hmapped
    refine ⟨⟨rfl, hall⟩, hentered.trans (hblocks.trans ?_)⟩
    rw [hasked, hrendered]
    rw [columnEnums, map_filterMap, filterMap_eq_flatMap_toList]
    simp only [Option.map_map]
    exact append_nil _
  · cases hbody
    obtain ⟨_, _, h, hentered⟩ := blocksIn_bind h
    obtain ⟨values, _, h, hread⟩ := blocksIn_bind h
    obtain ⟨_, _, h, hchecked⟩ := blocksIn_bind h
    obtain ⟨e, he, h, hrendered⟩ := blocksIn_bind h
    cases h
    refine ⟨⟨rfl, .nil⟩, hentered.trans (hread.trans (hchecked.trans ?_))⟩
    rw [blocksIn_checkRange, hrendered, blocksIn_named hr he]
    rfl

end Tables

end Mapping

/-! ### Documents -/

namespace Target.Prisma

/-- The enum of a declaration; where its name is another one, the given name is noted. -/
def declaredEnum (pad : String) (d : MappedDeclaration String) : EnumBlock :=
  let given := d.name.text?.getD ""
  let name := Identifier.pascalCase given
  { name
    members := d.enumValues.map enumMember
    note := if name == given then "" else "\n" ++ pad ++ "@@map(" ++ Json.stringText given ++
      ")\n" }

theorem emitEnum_eq {d : MappedDeclaration String} {text : String}
    (h : emitEnum indent d = .ok text) :
    text = (declaredEnum (padOf indent) d).text (padOf indent) := by
  obtain ⟨members, hmembers, h⟩ := bind_eq_ok.mp h
  obtain ⟨given, hgiven, h⟩ := bind_eq_ok.mp h
  have hname : d.name.text?.getD "" = given := by
    cases hd : d.name with
    | text s =>
      rw [hd] at hgiven
      cases hgiven
      rfl
    | _ =>
      rw [hd] at hgiven
      cases hgiven
  rw [EnumBlock.text, declaredEnum, hname, ← memberLines_eq hmembers]
  dsimp only at h ⊢
  split at h
  case isTrue hsame =>
    cases h
    rw [if_pos hsame]
  case isFalse hother =>
    obtain ⟨pad, hpad, h⟩ := bind_eq_ok.mp h
    cases h
    rw [if_neg hother, padOf, hpad]
    rfl

/-- The enums that are declared. -/
def declaredEnums (pad : String) (ds : List (MappedDeclaration String)) : List EnumBlock :=
  (ds.filter fun d => d.declaration.isEnumeration).map (declaredEnum pad)

theorem emit_enums {s : Setting} {ds : List (MappedDeclaration String)} {output : String}
    (h : emit s ds = .ok output) {columns : List EnumBlock}
    (hblocks : s.blocks = columns.map (EnumBlock.block (padOf s.indent))) :
    ∃ models, (ds.filter fun d => !d.declaration.isEnumeration).mapM (emitModel s.indent) =
      .ok models ∧
      output = "\n\n".intercalate ((declaredEnums (padOf s.indent) ds ++ columns).map
        (EnumBlock.text (padOf s.indent)) ++ models) ++ "\n" := by
  obtain ⟨enums, henums, h⟩ := bind_eq_ok.mp h
  obtain ⟨models, hmodels, h⟩ := bind_eq_ok.mp h
  cases h
  refine ⟨models, hmodels, ?_⟩
  have hdeclared :
      enums = (declaredEnums (padOf s.indent) ds).map (EnumBlock.text (padOf s.indent)) := by
    rw [declaredEnums, map_map]
    exact eq_map_of_mapM (fun d text hd => emitEnum_eq hd) henums
  rw [hdeclared, hblocks, map_append, map_map]
  rfl

end Target.Prisma

namespace Settings

theorem floor_nonneg {negative : Bool} {m : Nat} {e : Int} (h : (negative && m != 0) = false) :
    0 ≤ Binary64.floor negative m e := by
  unfold Binary64.floor
  dsimp only
  cases negative with
  | false => exact Int.natCast_nonneg _
  | true =>
    obtain rfl : m = 0 := by simpa using h
    have hzero : (Binary64.fraction 0 e).1 = 0 := by
      unfold Binary64.fraction
      split
      · rfl
      · exact Nat.zero_mul _
    simp [hzero]

/-- Settings that are accepted allow for one level at least. -/
theorem budgetAt_pos {t : Settings} (h : s.check = .ok t) : 0 < s.budgetAt 0 := by
  obtain ⟨_, _, h⟩ := bind_eq_ok.mp h
  dsimp only at h
  split at h
  · cases h
  obtain ⟨depth, hdepth, h⟩ := bind_eq_ok.mp h
  have hsign : s.maxDepth.isNegative = false := by
    cases hneg : s.maxDepth.isNegative with
    | false => rfl
    | true =>
      rw [hneg] at h
      cases h
  rw [budgetAt, hdepth]
  cases depth with
  | none => decide
  | some limit =>
    have hlimit : 0 ≤ limit := by
      unfold Scalar.floor? at hdepth
      unfold Scalar.isNegative at hsign
      split at hdepth
      case h_1 b _ =>
        cases hdepth
        split <;> decide
      case h_2 i heq =>
        cases hdepth
        rw [heq] at hsign
        simpa using hsign
      case h_3 heq =>
        cases hdepth
        rw [heq] at hsign
        exact floor_nonneg hsign
      all_goals cases hdepth
    dsimp only
    omega

end Settings

namespace Conversion

open Target.Prisma

/-- Tables that become models. -/
def tablesToModels (s : Settings) : Conversion :=
  { grammar := .sql, target := .prisma, settings := s }

/-- The enums of the columns of a document. -/
def columnEnums (s : Settings) (doc : Document) : List EnumBlock :=
  doc.catalogue.declarations.flatMap (Mapping.columnEnums (s.budgetAt 0))

theorem forall_mem_columnEnums {doc : Document} {P : EnumBlock → Prop} :
    (∀ b ∈ columnEnums s doc, P b) ↔
      ∀ d ∈ doc.catalogue.declarations, ∀ f ∈ d.fields, ∀ n vs,
        Sql.valuesOf? (s.budgetAt 0) f.type.asText = some (n, vs) →
          P (columnEnum d.name f.key vs) := by
  constructor
  · intro h d hd f hf n vs hvs
    refine h _ (mem_flatMap.mpr ⟨d, hd, mem_filterMap.mpr ⟨f, hf, ?_⟩⟩)
    rw [hvs]
    rfl
  · intro h b hb
    obtain ⟨d, hd, hb⟩ := mem_flatMap.mp hb
    obtain ⟨f, hf, hb⟩ := mem_filterMap.mp hb
    obtain ⟨⟨n, vs⟩, hvs, rfl⟩ := Option.map_eq_some_iff.mp hb
    exact h d hd f hf n vs hvs

/-- What is printed for tables: the enums, those of columns as they were set last, and the
models. -/
theorem exists_enums {source : List Char} {output : String}
    (h : ((tablesToModels s).run source).result = .ok output) :
    ∃ doc mds models, (Sql.extract source).result = .ok doc ∧
      (((tablesToModels s).mappingOf doc).inSourceOrder (s.budgetAt 0)).result = .ok mds ∧
      Forall₂ (fun d md => md.declaration = d ∧
        Forall₂ (fun f m => m.field = f ∧ Mapping.Typed (s.budgetAt 0) d.name m) d.fields md.fields)
        doc.catalogue.declarations mds ∧
      (mds.filter fun d => !d.declaration.isEnumeration).mapM (emitModel s.indent) = .ok models ∧
      output = "\n\n".intercalate
        ((declaredEnums (padOf s.indent) mds ++ EnumBlock.putAll (columnEnums s doc)).map
          (EnumBlock.text (padOf s.indent)) ++ models) ++ "\n" := by
  rw [run] at h
  split at h
  · cases h
  obtain ⟨doc, hdoc, h⟩ := result_bind_eq_ok.mp h
  split at h
  · cases h
  obtain ⟨mds, hmds, hemit⟩ := bind_eq_ok.mp h
  have hentries : ∀ d ∈ doc.catalogue.declarations, Sql.IsEntry d := fun d hd =>
    Sql.isEntry_extract hdoc d (Catalogue.mem_of_mem_ofList hd)
  have hrenderer : ((tablesToModels s).mappingOf doc).renderer = Target.Prisma.renderer s.indent :=
    rfl
  obtain ⟨hall, hblocks⟩ := Mapping.blocksIn_mapM (fun d hd md hmd =>
    Mapping.blocksIn_declaration rfl hrenderer rfl (hentries d hd) hmd) hmds
  have hprinted : (({} : Progress).afterAll
      (((tablesToModels s).mappingOf doc).inSourceOrder (s.budgetAt 0)).log).1.blocks =
        (EnumBlock.putAll (columnEnums s doc)).map (EnumBlock.block (padOf s.indent)) := by
    rw [Mapping.blocks_afterAll, EnumBlock.putAll, EnumBlock.map_block_foldl, columnEnums,
      map_flatMap]
    exact congrArg (List.foldl _ _) hblocks
  obtain ⟨models, hmodels, houtput⟩ := emit_enums hemit hprinted
  exact ⟨doc, mds, models, hdoc, hmds, hall, hmodels, houtput⟩

end Conversion

namespace Converter

open Target.Prisma Conversion

theorem conversion_tablesToModels {c : Converter} (hc : find? "sql-to-prisma" = some c)
    (s : Settings) : (c.withSettings s).conversion = tablesToModels s := by
  simp only [find?, all, find?_cons, String.reduceBEq] at hc
  cases hc
  rfl

/-- Every column that lists its values is typed with its enum. All these enums are printed with the
values of their columns, and no two printed enums have one name, exactly if the enums can be printed
side by side. -/
theorem column_enums_kept_iff {c : Converter} (hc : find? "sql-to-prisma" = some c) {s : Settings}
    (hs : s.check = .ok s) {collected : Collector} {source : List Char}
    (h : ((c.withSettings s).conversion.convert collected source).1.diagnostic = none) :
    ∃ doc mds models tables declared columns printed,
      (Sql.extract source).result = .ok doc ∧
      (((tablesToModels s).mappingOf doc).inSourceOrder (s.budgetAt 0)).result = .ok mds ∧
      (mds.filter fun d => !d.declaration.isEnumeration).mapM (emitModel s.indent) = .ok models ∧
      tables = doc.catalogue.declarations ∧
      declared = declaredEnums (padOf s.indent) mds ∧
      columns = columnEnums s doc ∧
      printed = declared ++ EnumBlock.putAll columns ∧
      ((c.withSettings s).conversion.convert collected source).1.output =
        "\n\n".intercalate (printed.map (EnumBlock.text (padOf s.indent)) ++ models) ++ "\n" ∧
      (∀ cs vs, Sql.classify cs = .ok (.enumeration vs) →
        Sql.valuesOf? (s.budgetAt 0) cs = some (0, vs)) ∧
      Forall₂ (fun d md => md.declaration = d ∧
        Forall₂ (fun f m => m.field = f ∧ Mapping.Typed (s.budgetAt 0) d.name m) d.fields md.fields)
        tables mds ∧
      ((∀ d ∈ tables, ∀ f ∈ d.fields, ∀ n vs,
          Sql.valuesOf? (s.budgetAt 0) f.type.asText = some (n, vs) →
            ∃ b ∈ printed, b.name = columnEnumName d.name f.key ∧ b.members = vs.map enumMember) ∧
          (printed.map EnumBlock.name).Nodup ↔ EnumBlock.Separate declared columns) := by
  rw [conversion_tablesToModels hc] at h ⊢
  obtain ⟨doc, mds, models, hdoc, hmds, htyped, hmodels, houtput⟩ :=
    exists_enums (result_of_convert h)
  refine ⟨doc, mds, models, _, _, _, _, hdoc, hmds, hmodels, rfl, rfl, rfl, rfl, houtput, ?_,
    htyped, ?_⟩
  · intro cs vs hclassify
    obtain ⟨levels, hlevels⟩ := Nat.exists_eq_succ_of_ne_zero (Settings.budgetAt_pos hs).ne'
    rw [hlevels, Sql.valuesOf?, hclassify]
  · rw [← EnumBlock.separate_iff, forall_mem_columnEnums]
    rfl

/-- Two columns of different tables whose enums have one name. -/
def sharedEnum : List Char :=
  "CREATE TABLE user_role (kind ENUM('a','b'));\n".toList ++
    "CREATE TABLE user (role_kind ENUM('c','d'));\n".toList

def sharedEnumDocument : Document :=
  { declarations := [
      { name := .text "User_role"
        body := .object
          [{ key := .text "kind", type := .text "ENUM('a','b')".toList, optional := true }]
        attributes := [.table "user_role", .primaryKey [], .uniqueTogether []] },
      { name := .text "User"
        body := .object
          [{ key := .text "role_kind", type := .text "ENUM('c','d')".toList, optional := true }]
        attributes := [.table "user", .primaryKey [], .uniqueTogether []] }] }

theorem extract_sharedEnum : (Sql.extract sharedEnum).result = .ok sharedEnumDocument := by
  have htables : (Document.readAll (Sql.tableHead.all (Sql.commentMarks.strip sharedEnum)) fun m =>
      Sql.parenthesized m Sql.table).result =
        .ok ([0, 45].zip sharedEnumDocument.declarations) := by
    with_unfolding_all rfl
  have henums : (Document.readAll (Sql.enumHead.all (Sql.commentMarks.strip sharedEnum)) fun m =>
      Sql.parenthesized m Sql.enumeration).result = .ok [] := by
    with_unfolding_all rfl
  exact Sql.result_extract henums htables (by decide)

/-- Both columns are typed with `UserRoleKind`, which has the values of the second. -/
theorem sharedEnum_overwritten :
    ∃ (c : Converter) (printed : List EnumBlock) (models : List String),
      find? "sql-to-prisma" = some c ∧ Settings.check {} = .ok {} ∧
      ((c.withSettings {}).conversion.convert {} sharedEnum).1.diagnostic = none ∧
      ((c.withSettings {}).conversion.convert {} sharedEnum).1.output =
        "\n\n".intercalate (printed.map (EnumBlock.text (padOf (Settings.indent {}))) ++ models) ++
          "\n" ∧
      ¬((∀ d ∈ sharedEnumDocument.catalogue.declarations, ∀ f ∈ d.fields,
          ∀ n vs, Sql.valuesOf? (Settings.budgetAt {} 0) f.type.asText = some (n, vs) →
            ∃ b ∈ printed, b.name = columnEnumName d.name f.key ∧ b.members = vs.map enumMember) ∧
          (printed.map EnumBlock.name).Nodup) := by
  have hc : find? "sql-to-prisma" = some all[7] := rfl
  have hs : Settings.check {} = .ok {} := rfl
  obtain ⟨output, houtput⟩ := exists_eq_ok
    (x := ((tablesToModels {}).print sharedEnumDocument).result) (by decide +kernel)
  have hrun : ((tablesToModels {}).run sharedEnum).result = .ok output :=
    result_run (c := tablesToModels {}) (by decide) extract_sharedEnum rfl houtput
  obtain ⟨doc, mds, models, tables, declared, columns, printed, hdoc, _, _, rfl, _, hcolumns, _,
    houtput, _, _, hlaw⟩ := column_enums_kept_iff hc hs (diagnostic_of_run hrun {})
  obtain rfl : sharedEnumDocument = doc := Except.ok.inj (extract_sharedEnum.symm.trans hdoc)
  refine ⟨all[7], printed, models, hc, hs, diagnostic_of_run hrun {}, houtput, ?_⟩
  intro hkept
  have hagree := (hlaw.mp hkept).agree
  have hpair : columns = [⟨"UserRoleKind", ["a", "b"], ""⟩, ⟨"UserRoleKind", ["c", "d"], ""⟩] := by
    rw [hcolumns]
    decide +kernel
  rw [hpair] at hagree
  have hsame := hagree _ mem_cons_self _ (mem_cons_of_mem _ mem_cons_self) rfl
  simp at hsame

end Converter

end Crosswalk
