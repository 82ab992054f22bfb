import Cddl.Proofs.Literals
import Cddl.Proofs.Record.Field
/-!
# Trees told by their records

Two nodes of one kind whose records are not told apart are the same node, by whatever comparison of data that respects
its parts (`Node.eq_of_record`).  A node is told by its kind, its own words and the nodes right below it, so the fact is
proved for one level at a time.
-/
namespace Cddl

open Datum (there?)

variable {numbers : Binary64 → Prop} {R : Datum → Datum → Prop} (telling : Datum.Telling numbers R)

/-! ## Leaves -/

@[simp] theorem Location.there?_record (l : Location) : l.record.there? = some l.record := rfl

section

include telling

theorem Location.record_inj {l l' : Location} (h : R l.record l'.record) : l = l' := by
  obtain ⟨line, column, offset⟩ := l
  obtain ⟨line', column', offset'⟩ := l'
  have lines : line = line' := telling.int (by simpa [record] using telling.get "line" h)
  have columns : column = column' := telling.int (by simpa [record] using telling.get "column" h)
  have offsets : offset = offset' := telling.int (by simpa [record] using telling.get "offset" h)
  rw [lines, columns, offsets]

theorem Span.record_inj {s s' : Span} (h : R s.record s'.record) : s = s' := by
  obtain ⟨start, stop⟩ := s
  obtain ⟨start', stop'⟩ := s'
  have starts : start = start' := Location.record_inj telling (by simpa [record] using telling.get "start" h)
  have stops : stop = stop' := Location.record_inj telling (by simpa [record] using telling.get "end" h)
  rw [starts, stops]

theorem Datum.Telling.spans {s s' : Option Span}
    (h : Option.Rel R ((s.map Span.record).bind there?) ((s'.map Span.record).bind there?)) : s = s' :=
  option (fun _ => rfl) (fun _ _ _ _ => Span.record_inj telling) h

theorem Datum.Telling.decimals {o o' : Option Int}
    (h : Option.Rel R ((o.map Datum.decimal).bind there?) ((o'.map Datum.decimal).bind there?)) : o = o' :=
  option (fun _ => rfl) (fun _ _ _ _ => telling.decimal) h

theorem Occur.record_inj {o o' : Occur} (h : R o.record o'.record) : o = o' := by
  have kind := telling.get "kind" h
  cases o <;> cases o' <;> simp [record] at kind <;> replace kind := telling.word kind <;> simp at kind
  case between.between l u l' u' =>
    have lower : l = l' := telling.decimals (by simpa [record] using telling.get "lower" h)
    have upper : u = u' := telling.decimals (by simpa [record] using telling.get "upper" h)
    rw [lower, upper]
  all_goals rfl

theorem RangeOrControl.record_inj {o o' : RangeOrControl} (h : R o.record o'.record) : o = o' := by
  have kind := telling.get "kind" h
  cases o <;> cases o' <;> simp [record] at kind <;> replace kind := telling.word kind <;> simp at kind
  case range.range b b' =>
    have inclusive : b = b' := telling.bool (by simpa [record] using telling.get "inclusive" h)
    rw [inclusive]
  case control.control n n' =>
    have name : n = n' := telling.text (by simpa [record] using telling.get "name" h)
    rw [name]

theorem Identifier.record_inj {i i' : Identifier} (h : R i.record i'.record) : i = i' := by
  obtain ⟨name, socket, span⟩ := i
  obtain ⟨name', socket', span'⟩ := i'
  have names : name = name' := telling.text (by simpa [record] using telling.get "ident" h)
  have labels (s s' : Socket) (h : R (.text s.label) (.text s'.label)) : s = s' := by
    have spelled := telling.word h
    cases s <;> cases s' <;> first | rfl | exact absurd spelled (by decide)
  have sockets : socket = socket' := Datum.Telling.option (fun _ => rfl) (fun s _ s' _ => labels s s')
    (by simpa [record] using telling.get "socket" h)
  have spans : span = span' := telling.spans (by simpa [record] using telling.get "span" h)
  rw [names, sockets, spans]

end

/-! ## Literals -/

/-- A literal that is one of the given numbers, if it is a floating-point number. -/
def Literal.Over (numbers : Binary64 → Prop) (v : Literal) : Prop := ∀ x, v = .float x → numbers x

theorem ByteEncoding.label_inj {e e' : ByteEncoding} (h : e.label = e'.label) : e = e' := by
  cases e <;> cases e' <;> first | rfl | exact absurd h (by decide)

include telling in
/-- A literal is told by its kind and by what it denotes. -/
theorem Literal.content_inj {v v' : Literal} (among : v.Over numbers) (among' : v'.Over numbers)
    (kind : v.typeKind = v'.typeKind) (h : Option.Rel R v.content.there? v'.content.there?) : v = v' := by
  rcases v with _ | _ | _ | _ | ⟨_ | _ | _, _⟩ <;> rcases v' with _ | _ | _ | _ | ⟨_ | _ | _, _⟩ <;>
    simp [typeKind] at kind <;> simp [content] at h
  case int.int | uint.uint => rw [telling.decimal h]
  case float.float x y => rw [telling.float (among x rfl) (among' y rfl) h]
  all_goals rw [telling.text h]

theorem Literal.value?_encodingField (v : Literal) {name : String} (h : name ≠ "encoding") :
    Datum.value? v.encodingField (Text.ofString name) = none := by
  cases v <;> simp [Literal.encodingField, h]

include telling in
theorem Literal.record_inj {v v' : Literal} (among : v.Over numbers) (among' : v'.Over numbers)
    (h : R v.record v'.record) : v = v' := by
  have label : v.label = v'.label := telling.word (by simpa [record] using telling.get "type" h)
  have encoding := telling.get "encoding" h
  have kind : v.typeKind = v'.typeKind := by
    cases v <;> cases v' <;> simp [Literal.label] at label
    case bytes.bytes e t e' t' =>
      have how : e = e' := ByteEncoding.label_inj (telling.word (by simpa [record, encodingField] using encoding))
      rw [how]
      cases e' <;> rfl
    all_goals rfl
  exact content_inj telling among among' kind
    (by simpa [record, value?_encodingField] using telling.get "value" h)

/-! ## What is right below a node -/

theorem Node.there?_record (n : Node) : n.record.there? = some n.record := by
  cases n with
  | rule | typeRule | groupRule | document | occurrence | genericParams | genericParam | identifier | value => rfl
  | _ x => cases x <;> rfl

/-- Of two lists of nodes, any two of one kind are the same if their records are not told apart. -/
def Told (R : Datum → Datum → Prop) (cs cs' : List Node) : Prop :=
  ∀ c ∈ cs, ∀ c' ∈ cs', c.kind = c'.kind → R c.record c'.record → c = c'

namespace Told

variable {c c' : Node} {cs cs' ds ds' : List Node}

theorem append (h : Told R (cs ++ ds) (cs' ++ ds')) : Told R cs cs' ∧ Told R ds ds' :=
  ⟨fun c hc c' hc' => h c (List.mem_append_left _ hc) c' (List.mem_append_left _ hc'),
    fun c hc c' hc' => h c (List.mem_append_right _ hc) c' (List.mem_append_right _ hc')⟩

theorem cons (h : Told R (c :: cs) (c' :: cs')) : Told R [c] [c'] ∧ Told R cs cs' := by
  rw [← List.singleton_append, ← List.singleton_append (l := cs')] at h
  exact h.append

theorem one (told : Told R [c] [c']) (kind : c.kind = c'.kind) (h : Option.Rel R c.record.there? c'.record.there?) :
    c = c' := by
  rw [c.there?_record, c'.there?_record, Option.rel_some_some] at h
  exact told c List.mem_cons_self c' List.mem_cons_self kind h

variable {α : Type} {f : α → Node} (hf : ∀ {a b : α}, f a = f b → a = b)
  (kind : ∀ a b : α, (f a).kind = (f b).kind)

include hf kind

theorem option {o o' : Option α} (told : Told R (o.toList.map f) (o'.toList.map f))
    (h : Option.Rel R ((o.map fun a => (f a).record).bind there?) ((o'.map fun a => (f a).record).bind there?)) :
    o = o' :=
  Datum.Telling.option (fun a => (f a).there?_record)
    (fun a ha b hb same => hf (told _ (List.mem_map_of_mem (Option.mem_toList.2 ha)) _
      (List.mem_map_of_mem (Option.mem_toList.2 hb)) (kind a b) same)) h

include telling in
theorem list {xs ys : List α} (told : Told R (xs.map f) (ys.map f))
    (h : R (.array (xs.map fun a => (f a).record)) (.array (ys.map fun a => (f a).record))) : xs = ys :=
  telling.list (fun a ha b hb same =>
    hf (told _ (List.mem_map_of_mem ha) _ (List.mem_map_of_mem hb) (kind a b) same)) h

end Told

/-! ## Lists and fields of a record -/

@[simp] theorem typeChoiceRecords_eq (cs : List TypeChoice) : typeChoiceRecords cs = cs.map TypeChoice.record := by
  induction cs with
  | nil => rfl
  | cons c cs ih => rw [typeChoiceRecords, ih, List.map_cons]

@[simp] theorem groupChoiceRecords_eq (cs : List GroupChoice) : groupChoiceRecords cs = cs.map GroupChoice.record := by
  induction cs with
  | nil => rfl
  | cons c cs ih => rw [groupChoiceRecords, ih, List.map_cons]

@[simp] theorem listedEntryRecords_eq (es : List ListedEntry) : listedEntryRecords es = es.map ListedEntry.record := by
  induction es with
  | nil => rfl
  | cons e es ih => rw [listedEntryRecords, ih, List.map_cons]

@[simp] theorem genericArgRecords_eq (as : List GenericArg) : genericArgRecords as = as.map GenericArg.record := by
  induction as with
  | nil => rfl
  | cons a as ih => rw [genericArgRecords, ih, List.map_cons]

@[simp] theorem operatorField_eq (o : Option Operator) :
    operatorField o = Datum.field? "operator" (o.map Operator.record) := by
  cases o <;> rfl

@[simp] theorem keyField_eq (k : Option MemberKey) :
    keyField k = Datum.field? "memberKey" (k.map MemberKey.record) := by
  cases k <;> rfl

@[simp] theorem argsField_eq (a : Option GenericArgs) :
    argsField a = Datum.field? "genericArgs" (a.map GenericArgs.record) := by
  cases a <;> rfl

/-- A name and its arguments, as the parts of a node. -/
theorem Told.name {i i' : Identifier} {a a' : Option GenericArgs} (told : Told R (Node.ofName i a) (Node.ofName i' a'))
    (names : Option.Rel R i.record.there? i'.record.there?)
    (args : Option.Rel R ((a.map GenericArgs.record).bind there?) ((a'.map GenericArgs.record).bind there?)) :
    i = i' ∧ a = a' := by
  obtain ⟨toldName, toldArgs⟩ := told.cons
  exact ⟨Node.identifier.inj (toldName.one rfl names), toldArgs.option Node.genericArgs.inj (fun _ _ => rfl) args⟩

/-! ## Kinds of types -/

/-- The kind that the record of a type names. -/
def Type2.recordKind : Type2 → String
  | .literal v _ => v.typeKind
  | .typename .. => "typename"
  | .parenthesized .. => "parenthesized_type"
  | .map .. => "map"
  | .array .. => "array"
  | .unwrap .. => "unwrap"
  | .choiceFromInlineGroup .. => "choice_from_inline_group"
  | .choiceFromGroup .. => "choice_from_group"
  | .tagged .. => "tagged_data"
  | .major .. => "data_major_type"
  | .any _ => "any"

theorem Type2.get?_kind (t : Type2) : t.record.get? "kind" = some (.text t.recordKind) := by
  cases t <;> simp [record, recordKind]

theorem Type2.get?_span (t : Type2) : t.record.get? "span" = (t.span.map Span.record).bind there? := by
  cases t <;> simp [record, span]

/-- The kinds of types that are literals are no other kinds. -/
theorem Literal.typeKind_ne (v : Literal) {kind : String} (h : kind ∉
    ["int_value", "uint_value", "float_value", "text_value", "utf8_bytes", "b16_bytes", "b64_bytes"]) :
    v.typeKind ≠ kind := by
  rintro rfl
  rcases v with _ | _ | _ | _ | ⟨_ | _ | _, _⟩ <;> simp [typeKind] at h

/-! ## Types and groups -/

section

include telling

theorem TypeExpr.record_inj {t t' : TypeExpr} (told : Told R (Node.type t).children (Node.type t').children)
    (h : R t.record t'.record) : t = t' := by
  obtain ⟨choices, span⟩ := t
  obtain ⟨choices', span'⟩ := t'
  have same : choices = choices' := told.list telling Node.typeChoice.inj (fun _ _ => rfl)
    (by simpa [record, Node.record] using telling.get "typeChoices" h)
  have spans : span = span' := telling.spans (by simpa [record] using telling.get "span" h)
  rw [same, spans]

theorem TypeChoice.record_inj {c c' : TypeChoice}
    (told : Told R (Node.typeChoice c).children (Node.typeChoice c').children) (h : R c.record c'.record) : c = c' := by
  obtain ⟨t, span⟩ := c
  obtain ⟨t', span'⟩ := c'
  have same : t = t' := Node.type1.inj <| told.one rfl
    (by simpa [record, Node.record] using telling.get "type1" h)
  have spans : span = span' := telling.spans (by simpa [record] using telling.get "span" h)
  rw [same, spans]

theorem Type1.record_inj {t t' : Type1} (told : Told R (Node.type1 t).children (Node.type1 t').children)
    (h : R t.record t'.record) : t = t' := by
  obtain ⟨operand, operator, span⟩ := t
  obtain ⟨operand', operator', span'⟩ := t'
  obtain ⟨toldOperand, toldOperator⟩ := told.cons
  have operands : operand = operand' := Node.type2.inj <| toldOperand.one rfl
    (by simpa [record, Node.record] using telling.get "type2" h)
  have operators : operator = operator' := toldOperator.option Node.operator.inj (fun _ _ => rfl)
    (by simpa [record, Node.record] using telling.get "operator" h)
  have spans : span = span' := telling.spans (by simpa [record] using telling.get "span" h)
  rw [operands, operators, spans]

theorem Operator.record_inj {o o' : Operator} (told : Told R (Node.operator o).children (Node.operator o').children)
    (h : R o.record o'.record) : o = o' := by
  obtain ⟨symbol, operand, span⟩ := o
  obtain ⟨symbol', operand', span'⟩ := o'
  have symbols : symbol = symbol' := RangeOrControl.record_inj telling (by
    have := telling.get "operator" h
    cases symbol <;> cases symbol' <;> simpa [record, RangeOrControl.record] using this)
  have operands : operand = operand' := Node.type2.inj <| told.one rfl
    (by simpa [record, Node.record] using telling.get "type2" h)
  have spans : span = span' := telling.spans (by simpa [record] using telling.get "span" h)
  rw [symbols, operands, spans]

theorem Type2.record_inj {t t' : Type2} (among : ∀ v, .value v ∈ (Node.type2 t).children → v.Over numbers)
    (among' : ∀ v, .value v ∈ (Node.type2 t').children → v.Over numbers)
    (told : Told R (Node.type2 t).children (Node.type2 t').children) (h : R t.record t'.record) : t = t' := by
  have kind : t.recordKind = t'.recordKind := telling.word (by simpa [get?_kind] using telling.get "kind" h)
  have span : t.span = t'.span := telling.spans (by simpa only [get?_span] using telling.get "span" h)
  -- no two forms of types share a kind
  cases t <;> cases t' <;> simp [recordKind, Literal.typeKind_ne, (Literal.typeKind_ne _ _).symm] at kind
  case literal.literal v s v' s' =>
    have same : v = v' := Literal.content_inj telling (among v (.head _)) (among' v' (.head _)) kind
      (by simpa [record] using telling.get "value" h)
    exact congrArg₂ literal same span
  case typename.typename i a s i' a' s' =>
    obtain ⟨rfl, rfl⟩ := told.name (by simpa [record] using telling.get "ident" h)
      (by simpa [record] using telling.get "genericArgs" h)
    exact congrArg (typename i a) span
  case parenthesized.parenthesized t s t' s' =>
    have same : t = t' := Node.type.inj <| told.one rfl
      (by simpa [record, Node.record] using telling.get "pt" h)
    exact congrArg₂ parenthesized same span
  case map.map g s g' s' =>
    have same : g = g' := Node.group.inj <| told.one rfl
      (by simpa [record, Node.record] using telling.get "group" h)
    exact congrArg₂ map same span
  case array.array g s g' s' =>
    have same : g = g' := Node.group.inj <| told.one rfl
      (by simpa [record, Node.record] using telling.get "group" h)
    exact congrArg₂ array same span
  case unwrap.unwrap i a s i' a' s' =>
    obtain ⟨rfl, rfl⟩ := told.name (by simpa [record] using telling.get "ident" h)
      (by simpa [record] using telling.get "genericArgs" h)
    exact congrArg (unwrap i a) span
  case choiceFromInlineGroup.choiceFromInlineGroup g s g' s' =>
    have same : g = g' := Node.group.inj <| told.one rfl
      (by simpa [record, Node.record] using telling.get "group" h)
    exact congrArg₂ choiceFromInlineGroup same span
  case choiceFromGroup.choiceFromGroup i a s i' a' s' =>
    obtain ⟨rfl, rfl⟩ := told.name (by simpa [record] using telling.get "ident" h)
      (by simpa [record] using telling.get "genericArgs" h)
    exact congrArg (choiceFromGroup i a) span
  case tagged.tagged n t s n' t' s' =>
    have tags : n = n' := telling.decimals (by simpa [record] using telling.get "tag" h)
    have same : t = t' := Node.type.inj <| told.one rfl
      (by simpa [record, Node.record] using telling.get "t" h)
    rw [tags]
    exact congrArg₂ (tagged n') same span
  case major.major m n s m' n' s' =>
    have majors : m = m' := telling.int (by simpa [record] using telling.get "mt" h)
    have numbers : n = n' := telling.decimals (by simpa [record] using telling.get "constraint" h)
    rw [majors, numbers]
    exact congrArg (major m' n') span
  case any.any => exact congrArg any span

theorem Group.record_inj {g g' : Group} (told : Told R (Node.group g).children (Node.group g').children)
    (h : R g.record g'.record) : g = g' := by
  obtain ⟨choices, span⟩ := g
  obtain ⟨choices', span'⟩ := g'
  have same : choices = choices' := told.list telling Node.groupChoice.inj (fun _ _ => rfl)
    (by simpa [record, Node.record] using telling.get "groupChoices" h)
  have spans : span = span' := telling.spans (by simpa [record] using telling.get "span" h)
  rw [same, spans]

theorem ListedEntry.record_inj {e e' : ListedEntry} (told : Told R [Node.groupEntry e.entry] [Node.groupEntry e'.entry])
    (h : R e.record e'.record) : e = e' := by
  obtain ⟨entry, comma⟩ := e
  obtain ⟨entry', comma'⟩ := e'
  have same : entry = entry' := Node.groupEntry.inj <| told.one rfl
    (by simpa [record, Node.record] using telling.get "entry" h)
  have commas : comma = comma' := telling.bool (by simpa [record] using telling.get "trailingComma" h)
  rw [same, commas]

theorem GroupChoice.record_inj {c c' : GroupChoice}
    (told : Told R (Node.groupChoice c).children (Node.groupChoice c').children)
    (h : R c.record c'.record) : c = c' := by
  obtain ⟨entries, span⟩ := c
  obtain ⟨entries', span'⟩ := c'
  have item : ∀ e ∈ entries, ∀ e' ∈ entries', R e.record e'.record → e = e' := by
    intro e he e' he'
    refine ListedEntry.record_inj telling fun n hn n' hn' => ?_
    cases List.mem_singleton.1 hn
    cases List.mem_singleton.1 hn'
    exact told _ (List.mem_map_of_mem he) _ (List.mem_map_of_mem he')
  have same : entries = entries' := telling.list item
    (by simpa [record] using telling.get "groupEntries" h)
  have spans : span = span' := telling.spans (by simpa [record] using telling.get "span" h)
  rw [same, spans]

theorem GroupEntry.record_inj {e e' : GroupEntry}
    (told : Told R (Node.groupEntry e).children (Node.groupEntry e').children) (h : R e.record e'.record) : e = e' := by
  have kind := telling.get "kind" h
  have span : e.span = e'.span := telling.spans (by
    have := telling.get "span" h
    cases e <;> cases e' <;> simpa [record, GroupEntry.span] using this)
  cases e <;> cases e' <;> simp [record] at kind <;> replace kind := telling.word kind <;> simp at kind
  case keyed.keyed e s e' s' =>
    have same : e = e' := Node.keyedEntry.inj <| told.one rfl
      (by simpa [record, Node.record] using telling.get "ge" h)
    exact congrArg₂ keyed same span
  case named.named e s e' s' =>
    have same : e = e' := Node.namedEntry.inj <| told.one rfl
      (by simpa [record, Node.record] using telling.get "ge" h)
    exact congrArg₂ named same span
  case inline.inline o g s o' g' s' =>
    obtain ⟨toldOccurrence, toldGroup⟩ := told.append
    have occurrences : o = o' := toldOccurrence.option Node.occurrence.inj (fun _ _ => rfl)
      (by simpa [record, Node.record] using telling.get "occur" h)
    have same : g = g' := Node.group.inj <| toldGroup.one rfl
      (by simpa [record, Node.record] using telling.get "group" h)
    rw [occurrences]
    exact congrArg₂ (inline o') same span

theorem KeyedEntry.record_inj {e e' : KeyedEntry}
    (told : Told R (Node.keyedEntry e).children (Node.keyedEntry e').children)
    (h : R e.record e'.record) : e = e' := by
  obtain ⟨occurrence, key, type, span⟩ := e
  obtain ⟨occurrence', key', type', span'⟩ := e'
  obtain ⟨told, toldType⟩ := told.append
  obtain ⟨toldOccurrence, toldKey⟩ := told.append
  have occurrences : occurrence = occurrence' := toldOccurrence.option Node.occurrence.inj (fun _ _ => rfl)
    (by simpa [record, Node.record] using telling.get "occur" h)
  have keys : key = key' := toldKey.option Node.memberKey.inj (fun _ _ => rfl)
    (by simpa [record, Node.record] using telling.get "memberKey" h)
  have types : type = type' := Node.type.inj <| toldType.one rfl
    (by simpa [record, Node.record] using telling.get "entryType" h)
  have spans : span = span' := telling.spans (by simpa [record] using telling.get "span" h)
  rw [occurrences, keys, types, spans]

theorem NamedEntry.record_inj {e e' : NamedEntry}
    (told : Told R (Node.namedEntry e).children (Node.namedEntry e').children)
    (h : R e.record e'.record) : e = e' := by
  obtain ⟨occurrence, name, args, span⟩ := e
  obtain ⟨occurrence', name', args', span'⟩ := e'
  obtain ⟨toldOccurrence, toldName⟩ := told.append
  have occurrences : occurrence = occurrence' := toldOccurrence.option Node.occurrence.inj (fun _ _ => rfl)
    (by simpa [record, Node.record] using telling.get "occur" h)
  obtain ⟨rfl, rfl⟩ := toldName.name (by simpa [record] using telling.get "name" h)
    (by simpa [record] using telling.get "genericArgs" h)
  have spans : span = span' := telling.spans (by simpa [record] using telling.get "span" h)
  rw [occurrences, spans]

theorem MemberKey.record_inj {k k' : MemberKey} (told : Told R (Node.memberKey k).children (Node.memberKey k').children)
    (h : R k.record k'.record) : k = k' := by
  have kind := telling.get "kind" h
  have span : k.span = k'.span := telling.spans (by
    have := telling.get "span" h
    cases k <;> cases k' <;> simpa [record, MemberKey.span] using this)
  cases k <;> cases k' <;> simp [record] at kind <;> replace kind := telling.word kind <;> simp at kind
  case type1.type1 t cut s t' cut' s' =>
    have same : t = t' := Node.type1.inj <| told.one rfl
      (by simpa [record, Node.record] using telling.get "t1" h)
    have cuts : cut = cut' := telling.bool (by simpa [record] using telling.get "isCut" h)
    rw [same]
    exact congrArg₂ (type1 t') cuts span
  case bareword.bareword i s i' s' =>
    have same : i = i' := Node.identifier.inj <| told.one rfl
      (by simpa [record, Node.record] using telling.get "ident" h)
    exact congrArg₂ bareword same span
  case literal.literal v s v' s' =>
    have same : v = v' := Node.value.inj <| told.one rfl
      (by simpa [record, Node.record] using telling.get "value" h)
    exact congrArg₂ literal same span
  case enclosed.enclosed e s e' s' =>
    have same : e = e' := Node.nonMemberKey.inj <| told.one rfl
      (by simpa [record, Node.record] using telling.get "nonMemberKey" h)
    exact congrArg₂ enclosed same span

theorem NonMemberKey.record_inj {k k' : NonMemberKey}
    (told : Told R (Node.nonMemberKey k).children (Node.nonMemberKey k').children)
    (h : R k.record k'.record) : k = k' := by
  have kind := telling.get "kind" h
  have span : k.span = k'.span := telling.spans (by
    have := telling.get "span" h
    cases k <;> cases k' <;> simpa [record, NonMemberKey.span] using this)
  cases k <;> cases k' <;> simp [record] at kind <;> replace kind := telling.word kind <;> simp at kind
  case group.group g s g' s' =>
    have same : g = g' := Node.group.inj <| told.one rfl
      (by simpa [record, Node.record] using telling.get "group" h)
    exact congrArg₂ group same span
  case type.type t s t' s' =>
    have same : t = t' := Node.type.inj <| told.one rfl
      (by simpa [record, Node.record] using telling.get "type" h)
    exact congrArg₂ type same span

theorem GenericArgs.record_inj {a a' : GenericArgs}
    (told : Told R (Node.genericArgs a).children (Node.genericArgs a').children)
    (h : R a.record a'.record) : a = a' := by
  obtain ⟨args, span⟩ := a
  obtain ⟨args', span'⟩ := a'
  have same : args = args' := told.list telling Node.genericArg.inj (fun _ _ => rfl)
    (by simpa [record, Node.record] using telling.get "args" h)
  have spans : span = span' := telling.spans (by simpa [record] using telling.get "span" h)
  rw [same, spans]

theorem GenericArg.record_inj {a a' : GenericArg}
    (told : Told R (Node.genericArg a).children (Node.genericArg a').children) (h : R a.record a'.record) : a = a' := by
  obtain ⟨arg, span⟩ := a
  obtain ⟨arg', span'⟩ := a'
  have same : arg = arg' := Node.type1.inj <| told.one rfl
    (by simpa [record, Node.record] using telling.get "arg" h)
  have spans : span = span' := telling.spans (by simpa [record] using telling.get "span" h)
  rw [same, spans]

/-! ## Rules and documents -/

theorem Occurrence.record_inj {o o' : Occurrence} (h : R o.record o'.record) : o = o' := by
  obtain ⟨occur, span⟩ := o
  obtain ⟨occur', span'⟩ := o'
  have same : occur = occur' := Occur.record_inj telling (by
    have := telling.get "occur" h
    cases occur <;> cases occur' <;> simpa [record, Occur.record] using this)
  have spans : span = span' := telling.spans (by simpa [record] using telling.get "span" h)
  rw [same, spans]

theorem GenericParam.record_inj {p p' : GenericParam}
    (told : Told R (Node.genericParam p).children (Node.genericParam p').children)
    (h : R p.record p'.record) : p = p' := by
  obtain ⟨param, span⟩ := p
  obtain ⟨param', span'⟩ := p'
  have same : param = param' := Node.identifier.inj <| told.one rfl
    (by simpa [record, Node.record] using telling.get "param" h)
  have spans : span = span' := telling.spans (by simpa [record] using telling.get "span" h)
  rw [same, spans]

theorem GenericParams.record_inj {p p' : GenericParams}
    (told : Told R (Node.genericParams p).children (Node.genericParams p').children)
    (h : R p.record p'.record) : p = p' := by
  obtain ⟨params, span⟩ := p
  obtain ⟨params', span'⟩ := p'
  have same : params = params' := told.list telling Node.genericParam.inj (fun _ _ => rfl)
    (by simpa [record, Node.record] using telling.get "params" h)
  have spans : span = span' := telling.spans (by simpa [record] using telling.get "span" h)
  rw [same, spans]

theorem TypeRule.record_inj {r r' : TypeRule} (told : Told R (Node.typeRule r).children (Node.typeRule r').children)
    (h : R r.record r'.record) : r = r' := by
  obtain ⟨name, params, adds, value, span⟩ := r
  obtain ⟨name', params', adds', value', span'⟩ := r'
  obtain ⟨toldName, told⟩ := told.cons
  obtain ⟨toldParams, toldValue⟩ := told.append
  have names : name = name' := Node.identifier.inj <| toldName.one rfl
    (by simpa [record, Node.record] using telling.get "name" h)
  have same : params = params' := toldParams.option Node.genericParams.inj (fun _ _ => rfl)
    (by simpa [record, Node.record] using telling.get "genericParams" h)
  have signs : adds = adds' := telling.bool (by simpa [record] using telling.get "isTypeChoiceAlternate" h)
  have values : value = value' := Node.type.inj <| toldValue.one rfl
    (by simpa [record, Node.record] using telling.get "value" h)
  have spans : span = span' := telling.spans (by simpa [record] using telling.get "span" h)
  rw [names, same, signs, values, spans]

theorem GroupRule.record_inj {r r' : GroupRule} (told : Told R (Node.groupRule r).children (Node.groupRule r').children)
    (h : R r.record r'.record) : r = r' := by
  obtain ⟨name, params, adds, entry, span⟩ := r
  obtain ⟨name', params', adds', entry', span'⟩ := r'
  obtain ⟨toldName, told⟩ := told.cons
  obtain ⟨toldParams, toldEntry⟩ := told.append
  have names : name = name' := Node.identifier.inj <| toldName.one rfl
    (by simpa [record, Node.record] using telling.get "name" h)
  have same : params = params' := toldParams.option Node.genericParams.inj (fun _ _ => rfl)
    (by simpa [record, Node.record] using telling.get "genericParams" h)
  have signs : adds = adds' := telling.bool (by simpa [record] using telling.get "isGroupChoiceAlternate" h)
  have entries : entry = entry' := Node.groupEntry.inj <| toldEntry.one rfl
    (by simpa [record, Node.record] using telling.get "entry" h)
  have spans : span = span' := telling.spans (by simpa [record] using telling.get "span" h)
  rw [names, same, signs, entries, spans]

theorem Rule.record_inj {r r' : Rule} (told : Told R (Node.rule r).children (Node.rule r').children)
    (h : R r.record r'.record) : r = r' := by
  obtain ⟨body, span⟩ := r
  obtain ⟨body', span'⟩ := r'
  have same : body = body' := by
    have bodies := telling.get "rule" h
    cases body <;> cases body'
    case type.type r r' =>
      rw [Node.typeRule.inj <| told.one rfl (by simpa [record, RuleBody.record, Node.record] using bodies)]
    case group.group r r' =>
      rw [Node.groupRule.inj <| told.one rfl (by simpa [record, RuleBody.record, Node.record] using bodies)]
    all_goals
      simp [record, RuleBody.record, TypeRule.record, GroupRule.record, nodeRecord] at bodies
      have kind := telling.word (by simpa using telling.get "kind" bodies)
      simp at kind
  have spans : span = span' := telling.spans (by simpa [record] using telling.get "span" h)
  rw [same, spans]

theorem Document.record_inj {d d' : Document} (told : Told R (Node.document d).children (Node.document d').children)
    (h : R d.record d'.record) : d = d' := by
  obtain ⟨rules, span⟩ := d
  obtain ⟨rules', span'⟩ := d'
  have same : rules = rules' := told.list telling Node.rule.inj (fun _ _ => rfl)
    (by simpa [record, Node.record] using telling.get "rules" h)
  have spans : span = span' := telling.spans (by simpa [record] using telling.get "span" h)
  rw [same, spans]

end

/-! ## Nodes of any kind -/

namespace Node

variable {n m : Node}

theorem literals_of_child {c : Node} (hc : c ∈ n.children) {v : Literal} (h : v ∈ c.literals) : v ∈ n.literals := by
  rw [literals_eq, List.mem_append]
  exact .inr (List.mem_flatMap.2 ⟨c, hc, h⟩)

theorem mem_literals_value (v : Literal) : v ∈ (value v).literals := by
  rw [literals_value]
  exact List.mem_cons_self

include telling

/-- A node is told by its record once the nodes right below it are. -/
theorem record_inj (kind : n.kind = m.kind) (among : ∀ v ∈ n.literals, v.Over numbers)
    (among' : ∀ v ∈ m.literals, v.Over numbers) (told : Told R n.children m.children) (h : R n.record m.record) :
    n = m := by
  cases n <;> cases m <;> cases kind
  case document.document d d' => rw [Document.record_inj telling told h]
  case rule.rule r r' => rw [Rule.record_inj telling told h]
  case typeRule.typeRule r r' => rw [TypeRule.record_inj telling told h]
  case groupRule.groupRule r r' => rw [GroupRule.record_inj telling told h]
  case type.type t t' => rw [TypeExpr.record_inj telling told h]
  case typeChoice.typeChoice c c' => rw [TypeChoice.record_inj telling told h]
  case type1.type1 t t' => rw [Type1.record_inj telling told h]
  case operator.operator o o' => rw [Operator.record_inj telling told h]
  case type2.type2 t t' =>
    rw [Type2.record_inj telling (fun v hv => among v (literals_of_child hv (mem_literals_value v)))
      (fun v hv => among' v (literals_of_child hv (mem_literals_value v))) told h]
  case group.group g g' => rw [Group.record_inj telling told h]
  case groupChoice.groupChoice c c' => rw [GroupChoice.record_inj telling told h]
  case groupEntry.groupEntry e e' => rw [GroupEntry.record_inj telling told h]
  case keyedEntry.keyedEntry e e' => rw [KeyedEntry.record_inj telling told h]
  case namedEntry.namedEntry e e' => rw [NamedEntry.record_inj telling told h]
  case occurrence.occurrence o o' => rw [Occurrence.record_inj telling h]
  case memberKey.memberKey k k' => rw [MemberKey.record_inj telling told h]
  case nonMemberKey.nonMemberKey k k' => rw [NonMemberKey.record_inj telling told h]
  case genericParams.genericParams p p' => rw [GenericParams.record_inj telling told h]
  case genericParam.genericParam p p' => rw [GenericParam.record_inj telling told h]
  case genericArgs.genericArgs a a' => rw [GenericArgs.record_inj telling told h]
  case genericArg.genericArg a a' => rw [GenericArg.record_inj telling told h]
  case identifier.identifier i i' => rw [Identifier.record_inj telling h]
  case value.value v v' =>
    rw [Literal.record_inj telling (among v (mem_literals_value v)) (among' v' (mem_literals_value v')) h]

/-- **Two nodes of one kind are the same if their records are not told apart**, by whatever comparison of data that
respects its parts and tells their floating-point numbers apart. -/
theorem eq_of_record {n m : Node} (kind : n.kind = m.kind) (among : ∀ v ∈ n.literals, v.Over numbers)
    (among' : ∀ v ∈ m.literals, v.Over numbers) (h : R n.record m.record) : n = m := by
  refine record_inj telling kind among among' (fun c hc c' hc' kind same => ?_) h
  exact eq_of_record kind (fun v hv => among v (literals_of_child hc hv))
    (fun v hv => among' v (literals_of_child hc' hv)) same
termination_by n
decreasing_by exact sizeOf_child_lt hc

end Node
end Cddl
