import TraceJvm.CallArity

/-! The descriptor parsers with all that they keep of a descriptor, against the grammar of JVMS
4.3. A text is a list of characters, of which the parsers look at ASCII characters only. -/
namespace TraceJvm

open List

/-! ### The parsers -/

/-- `field_descriptor`. The class name is set for reference types only. -/
structure ParsedDescriptor where
  baseKind : TypeKind
  reprKind : TypeKind
  dimensions : ℕ
  className : Option (List Char)
  unparsed : List Char

/-- `parse_field_descriptor`, which began at `start` and has passed the given number of brackets. -/
def scanFieldDescriptor (start : List Char) (dimensions : ℕ) :
    List Char → Except String (ParsedDescriptor × List Char)
  | [] => .error "Expected field descriptor character, but reached end of string"
  | c :: cs =>
    if 255 < dimensions then .error "too many dimensions (max 255)"
    else if c = '[' then scanFieldDescriptor start (dimensions + 1) cs
    else if c = 'L' then
      match cs.dropWhile (· ≠ ';') with
      | [] => .error "missing ';' in reference type"
      | _ :: rest =>
        if cs.takeWhile (· ≠ ';') = [] then .error "missing reference type name"
        else
          .ok (⟨.reference, .reference, dimensions, some (cs.takeWhile (· ≠ ';')),
            start.take (start.length - rest.length)⟩, rest)
    else
      match readTypeKindChar c with
      | none => .error ("invalid field descriptor character '" ++ c.toString ++ "'")
      | some kind =>
        if kind = .void ∧ 0 < dimensions then .error "void cannot have dimensions"
        else
          .ok (⟨kind, if dimensions ≠ 0 then .reference else kind.representable, dimensions, none,
            start.take (start.length - cs.length)⟩, cs)

def parseCompleteFieldDescriptor (entry : List Char) : Except String ParsedDescriptor :=
  match scanFieldDescriptor entry 0 entry with
  | .error e => .error e
  | .ok (d, []) => .ok d
  | .ok (_, c :: _) => .error ("trailing character(s): '" ++ c.toString ++ "'")

/-- `method_descriptor`. -/
structure ParsedMethodDescriptor where
  args : List ParsedDescriptor
  returnType : ParsedDescriptor

/-- The loop of `parse_method_descriptor` over the parameters, bounded by the length of the text. -/
def scanParameters : ℕ → List Char → Except String (List ParsedDescriptor × List Char)
  | 0, cs => .ok ([], cs)
  | _ + 1, [] => .ok ([], [])
  | bound + 1, c :: cs =>
    if c = ')' then .ok ([], c :: cs)
    else
      match scanFieldDescriptor (c :: cs) 0 (c :: cs) with
      | .error e => .error e
      | .ok (arg, rest) =>
        if arg.baseKind = .void then .error "void as method parameter"
        else
          match scanParameters bound rest with
          | .error e => .error e
          | .ok (args, rest) => .ok (arg :: args, rest)

/-- `parse_method_descriptor`. What follows the result type is not looked at. -/
def scanMethodDescriptor : List Char → Except String ParsedMethodDescriptor
  | '(' :: cs =>
    match scanParameters cs.length cs with
    | .error e => .error e
    | .ok (_, []) => .error "missing ')' in method descriptor"
    | .ok (args, _ :: rest) =>
      match scanFieldDescriptor rest 0 rest with
      | .error e => .error e
      | .ok (returnType, _) => .ok ⟨args, returnType⟩
  | _ => .error "Expected '('"

/-- The character that `read_type_kind_char` takes for a kind. -/
def TypeKind.descriptorChar : TypeKind → Char
  | .boolean => 'Z'
  | .byte => 'B'
  | .char => 'C'
  | .short => 'S'
  | .int => 'I'
  | .long => 'J'
  | .float => 'F'
  | .double => 'D'
  | .void => 'V'
  | .reference => 'L'

def ParsedDescriptor.base (d : ParsedDescriptor) : List Char :=
  match d.className with
  | some name => 'L' :: (name ++ [';'])
  | none => [d.baseKind.descriptorChar]

/-- The text that the parsed dimensions, base kind and class name stand for. -/
def ParsedDescriptor.print (d : ParsedDescriptor) : List Char :=
  List.replicate d.dimensions '[' ++ d.base

def ParsedMethodDescriptor.print (m : ParsedMethodDescriptor) : List Char :=
  '(' :: (m.args.flatMap ParsedDescriptor.print ++ ')' :: m.returnType.print)

/-! ### The grammar -/

def BinaryName (name : List Char) : Prop :=
  ∀ part ∈ name.splitOn '/', part ≠ [] ∧ ∀ c ∈ part, c ∉ ['.', ';', '[']

instance (name : List Char) : Decidable (BinaryName name) :=
  inferInstanceAs (Decidable (∀ part ∈ _, _ ∧ _))

/-- `FieldType` with its number of dimensions and the class names in it. Any name without a
semicolon can stand for a class. -/
inductive FieldType : ℕ → List (List Char) → List Char → Prop where
  | base {c : Char} (h : c ∈ ['B', 'C', 'D', 'F', 'I', 'J', 'S', 'Z']) : FieldType 0 [] [c]
  | object {name : List Char} (hne : name ≠ []) (h : ';' ∉ name) :
    FieldType 0 [name] ('L' :: (name ++ [';']))
  | array {k : ℕ} {names : List (List Char)} {t : List Char} (h : FieldType k names t) :
    FieldType (k + 1) names ('[' :: t)

/-- A `FieldDescriptor`. -/
def IsFieldDescriptor (t : List Char) : Prop :=
  ∃ k names, FieldType k names t ∧ k ≤ 255 ∧ ∀ name ∈ names, BinaryName name

def parameterSlots (t : List Char) : ℕ := if t = ['J'] ∨ t = ['D'] then 2 else 1

/-- A sequence of `ParameterDescriptor`s with the number of their slots and their class names. -/
inductive ParameterTypes : ℕ → List (List Char) → List Char → Prop where
  | nil : ParameterTypes 0 [] []
  | cons {k slots : ℕ} {names names' : List (List Char)} {t u : List Char}
    (h : FieldType k names t) (hk : k ≤ 255) (hs : ParameterTypes slots names' u) :
    ParameterTypes (parameterSlots t + slots) (names ++ names') (t ++ u)

/-- A `ReturnDescriptor` with its class names. -/
inductive ReturnType : List (List Char) → List Char → Prop where
  | field {k : ℕ} {names : List (List Char)} {t : List Char} (h : FieldType k names t)
    (hk : k ≤ 255) : ReturnType names t
  | void : ReturnType [] ['V']

/-- The form of a method descriptor, with the slots of the parameters and the class names. -/
inductive MethodType : ℕ → List (List Char) → List Char → Prop where
  | intro {slots : ℕ} {names names' : List (List Char)} {ps r : List Char}
    (hp : ParameterTypes slots names ps) (hr : ReturnType names' r) :
    MethodType slots (names ++ names') ('(' :: (ps ++ ')' :: r))

/-- A `MethodDescriptor`. -/
def IsMethodDescriptor (t : List Char) : Prop :=
  ∃ slots names, MethodType slots names t ∧ slots ≤ 255 ∧ ∀ name ∈ names, BinaryName name

/-! ### Soundness and completeness of the parsers for the form of a descriptor -/

def ParsedDescriptor.names (d : ParsedDescriptor) : List (List Char) := d.className.toList

theorem takeWhile_append_semicolon {name : List Char} (h : ';' ∉ name) (rest : List Char) :
    (name ++ ';' :: rest).takeWhile (· ≠ ';') = name ∧
      (name ++ ';' :: rest).dropWhile (· ≠ ';') = ';' :: rest := by
  induction name with
  | nil => simp
  | cons c name ih =>
    rw [mem_cons, not_or] at h
    have hc : c ≠ ';' := fun he => h.1 he.symm
    simpa [hc] using ih h.2

def ParsedMethodDescriptor.slots (m : ParsedMethodDescriptor) : ℕ :=
  (m.args.map fun d => parameterSlots d.print).sum

def ParsedMethodDescriptor.names (m : ParsedMethodDescriptor) : List (List Char) :=
  m.args.flatMap ParsedDescriptor.names ++ m.returnType.names

variable {t : List Char} {dimensions k : ℕ} {names : List (List Char)}

/-- A descriptor at the head of a text is parsed, and the parser stops behind it. -/
theorem scanFieldDescriptor_complete (start rest : List Char) (h : FieldType k names t)
    (hk : dimensions + k ≤ 255) :
    ∃ d, scanFieldDescriptor start dimensions (t ++ rest) = .ok (d, rest) ∧
      d.dimensions = dimensions + k ∧ List.replicate k '[' ++ d.base = t ∧ d.names = names ∧
      d.baseKind ≠ .void := by
  induction h generalizing dimensions with
  | @base c h =>
    have hle : ¬ 255 < dimensions := by omega
    simp only [mem_cons, not_mem_nil, or_false] at h
    rcases h with rfl | rfl | rfl | rfl | rfl | rfl | rfl | rfl <;>
      simp [scanFieldDescriptor, hle, readTypeKindChar, ParsedDescriptor.base,
        ParsedDescriptor.names, TypeKind.descriptorChar]
  | @object name hne h =>
    have hle : ¬ 255 < dimensions := by omega
    obtain ⟨htake, hdrop⟩ := takeWhile_append_semicolon h rest
    refine ⟨⟨.reference, .reference, dimensions, some name,
      start.take (start.length - rest.length)⟩, ?_, rfl, rfl, rfl, fun h => by cases h⟩
    have happ : 'L' :: (name ++ [';']) ++ rest = 'L' :: (name ++ ';' :: rest) := by simp
    rw [happ, scanFieldDescriptor, if_neg hle, if_neg (by decide), if_pos rfl]
    rw [hdrop, htake]
    simp [hne]
  | @array k names t h ih =>
    have hle : ¬ 255 < dimensions := by omega
    have hinner : dimensions + 1 + k ≤ 255 := by omega
    obtain ⟨d, hd, hdim, hbase, hrest⟩ := ih hinner
    refine ⟨d, ?_, by omega, ?_, hrest⟩
    · rw [cons_append, scanFieldDescriptor, if_neg hle, if_pos rfl, hd]
    · rw [replicate_succ, cons_append, hbase]

variable {cs : List Char} {c : Char}

theorem split_at_semicolon {tail : List Char} (h : cs.dropWhile (· ≠ ';') = c :: tail) :
    cs = cs.takeWhile (· ≠ ';') ++ ';' :: tail ∧ ';' ∉ cs.takeWhile (· ≠ ';') := by
  have hc : c = ';' := by
    have hhead := head?_dropWhile_not (fun x => decide (x ≠ ';')) cs
    rw [h] at hhead
    simpa using hhead
  constructor
  · have hsplit := takeWhile_append_dropWhile (p := fun x => decide (x ≠ ';')) (l := cs)
    rw [h, hc] at hsplit
    exact hsplit.symm
  · intro hmem
    have hall := all_takeWhile (p := fun x => decide (x ≠ ';')) (l := cs)
    have hne := all_eq_true.mp hall ';' hmem
    exact of_decide_eq_true hne rfl

theorem readTypeKindChar_char {kind : TypeKind} (h : readTypeKindChar c = some kind)
    (hL : c ≠ 'L') :
    kind.descriptorChar = c ∧ (kind = .void ∧ c = 'V' ∨
      kind ≠ .void ∧ c ∈ ['B', 'C', 'D', 'F', 'I', 'J', 'S', 'Z']) := by
  unfold readTypeKindChar at h
  split at h <;> cases h
  all_goals first
    | decide
    | exact absurd rfl hL

variable {start rest : List Char} {d : ParsedDescriptor}

/-- What the parser takes from the head of a text is a descriptor, or the `V` of a result type. -/
theorem scanFieldDescriptor_sound (h : scanFieldDescriptor start dimensions cs = .ok (d, rest)) :
    ∃ k, cs = List.replicate k '[' ++ d.base ++ rest ∧ d.dimensions = dimensions + k ∧
      d.dimensions ≤ 255 ∧
      (FieldType k d.names (List.replicate k '[' ++ d.base) ∧ d.baseKind ≠ .void ∨
        dimensions = 0 ∧ k = 0 ∧ d.base = ['V'] ∧ d.names = [] ∧ d.baseKind = .void) := by
  induction cs generalizing dimensions with
  | nil => cases h
  | cons c cs ih =>
    rw [scanFieldDescriptor] at h
    split at h
    · cases h
    · rename_i hle
      split at h
      · rename_i hc
        obtain ⟨k, hcs, hdim, hmax, hform⟩ := ih h
        refine ⟨k + 1, ?_, by omega, hmax, ?_⟩
        · rw [hc, hcs]
          rfl
        · rcases hform with ⟨hform, hvoid⟩ | ⟨hzero, -⟩
          · exact .inl ⟨.array hform, hvoid⟩
          · cases hzero
      · split at h
        · split at h
          · cases h
          · rename_i hc _ _ tail hdrop
            split at h
            · cases h
            · rename_i hname
              cases h
              obtain ⟨hcs, hsemi⟩ := split_at_semicolon hdrop
              refine ⟨0, ?_, rfl, Nat.le_of_not_lt hle, .inl ⟨.object hname hsemi, nofun⟩⟩
              rw [hc]
              show 'L' :: cs = 'L' :: (cs.takeWhile (· ≠ ';') ++ [';'] ++ rest)
              rw [append_assoc]
              exact congrArg _ hcs
        · split at h
          · cases h
          · rename_i hc hL _ kind hkind
            obtain ⟨hchar, hbase⟩ := readTypeKindChar_char hkind hL
            split at h
            · cases h
            · rename_i hvoid
              cases h
              refine ⟨0, ?_, rfl, Nat.le_of_not_lt hle, ?_⟩
              · show c :: rest = kind.descriptorChar :: rest
                rw [hchar]
              · show FieldType 0 [] [kind.descriptorChar] ∧ kind ≠ .void ∨
                  dimensions = 0 ∧ 0 = 0 ∧ [kind.descriptorChar] = ['V'] ∧ _ = [] ∧ kind = .void
                rw [hchar]
                rcases hbase with ⟨hv, rfl⟩ | ⟨hv, hmem⟩
                · have hzero : dimensions = 0 := by
                    by_contra hne
                    exact hvoid ⟨hv, Nat.pos_of_ne_zero hne⟩
                  exact .inr ⟨hzero, rfl, rfl, rfl, hv⟩
                · exact .inl ⟨.base hmem, hv⟩

theorem scanFieldDescriptor_print (h : scanFieldDescriptor start 0 cs = .ok (d, rest)) :
    cs = d.print ++ rest ∧ d.dimensions ≤ 255 ∧
      (FieldType d.dimensions d.names d.print ∧ d.baseKind ≠ .void ∨
        d.print = ['V'] ∧ d.names = [] ∧ d.baseKind = .void) := by
  obtain ⟨k, hcs, hdim, hmax, hform⟩ := scanFieldDescriptor_sound h
  rw [Nat.zero_add] at hdim
  unfold ParsedDescriptor.print
  rw [hdim]
  refine ⟨hcs, by omega, ?_⟩
  rcases hform with hform | ⟨-, hk, hbase, hnames, hvoid⟩
  · exact .inl hform
  · right
    rw [hk, hbase]
    exact ⟨rfl, hnames, hvoid⟩

theorem scanFieldDescriptor_of_type (start rest : List Char) (h : FieldType k names t)
    (hk : k ≤ 255) :
    ∃ d, scanFieldDescriptor start 0 (t ++ rest) = .ok (d, rest) ∧ d.print = t ∧ d.names = names ∧
      d.baseKind ≠ .void := by
  have hbound : 0 + k ≤ 255 := by omega
  obtain ⟨d, hd, hdim, hbase, hnames, hvoid⟩ := scanFieldDescriptor_complete start rest h hbound
  refine ⟨d, hd, ?_, hnames, hvoid⟩
  unfold ParsedDescriptor.print
  rw [hdim, Nat.zero_add, hbase]

theorem scanFieldDescriptor_of_returnType (start rest : List Char) (h : ReturnType names t) :
    ∃ d, scanFieldDescriptor start 0 (t ++ rest) = .ok (d, rest) ∧ d.print = t ∧
      d.names = names := by
  cases h with
  | field h hk =>
    obtain ⟨d, hd, hprint, hnames, -⟩ := scanFieldDescriptor_of_type start rest h hk
    exact ⟨d, hd, hprint, hnames⟩
  | void => exact ⟨_, rfl, rfl, rfl⟩

theorem FieldType.head (h : FieldType k names t) : ∃ c cs, t = c :: cs ∧ c ≠ ')' := by
  cases h with
  | @base c h =>
    refine ⟨c, [], rfl, ?_⟩
    rintro rfl
    revert h
    decide
  | object | array => exact ⟨_, _, rfl, by decide⟩

variable {bound slots : ℕ}

theorem scanParameters_complete {ps : List Char}
    (rest : List Char) (h : ParameterTypes slots names ps)
    (hbound : (ps ++ ')' :: rest).length ≤ bound) :
    ∃ args, scanParameters bound (ps ++ ')' :: rest) = .ok (args, ')' :: rest) ∧
      args.flatMap ParsedDescriptor.print = ps ∧ args.flatMap ParsedDescriptor.names = names ∧
      (args.map fun d => parameterSlots d.print).sum = slots := by
  induction h generalizing bound with
  | nil =>
    obtain ⟨bound, rfl⟩ := Nat.exists_eq_add_of_lt (Nat.lt_of_lt_of_le (Nat.succ_pos _) hbound)
    refine ⟨[], ?_, rfl, rfl, rfl⟩
    rw [nil_append, scanParameters, if_pos rfl]
  | @cons k slots names names' t u h hk hs ih =>
    obtain ⟨c, cs, rfl, hc⟩ := h.head
    rw [append_assoc] at hbound ⊢
    rw [cons_append, length_cons, length_append] at hbound
    obtain ⟨bound, rfl⟩ := Nat.exists_eq_add_of_lt (Nat.lt_of_lt_of_le (Nat.succ_pos _) hbound)
    have hinner : (u ++ ')' :: rest).length ≤ 0 + bound := by omega
    obtain ⟨d, hd, hprint, hnames, hvoid⟩ := scanFieldDescriptor_of_type
      (c :: cs ++ (u ++ ')' :: rest)) (u ++ ')' :: rest) h hk
    obtain ⟨args, hargs, hprints, hnames', hslots⟩ := ih hinner
    refine ⟨d :: args, ?_, ?_, ?_, ?_⟩
    · rw [cons_append] at hd ⊢
      rw [scanParameters, if_neg hc, hd]
      simp only [hvoid, if_false, hargs]
    · rw [flatMap_cons, hprint, hprints]
    · rw [flatMap_cons, hnames, hnames']
    · rw [map_cons, sum_cons, hprint, hslots]

theorem scanParameters_sound {args : List ParsedDescriptor}
    (hbound : cs.length ≤ bound) (h : scanParameters bound cs = .ok (args, rest)) :
    cs = args.flatMap ParsedDescriptor.print ++ rest ∧ (rest = [] ∨ ∃ u, rest = ')' :: u) ∧
      ParameterTypes (args.map fun d => parameterSlots d.print).sum
        (args.flatMap ParsedDescriptor.names) (args.flatMap ParsedDescriptor.print) := by
  induction bound generalizing cs args with
  | zero =>
    obtain rfl := length_eq_zero_iff.mp (Nat.le_zero.mp hbound)
    cases h
    exact ⟨rfl, .inl rfl, .nil⟩
  | succ bound ih =>
    cases cs with
    | nil =>
      cases h
      exact ⟨rfl, .inl rfl, .nil⟩
    | cons c cs =>
      rw [scanParameters] at h
      split at h
      · rename_i hc
        cases h
        exact ⟨rfl, .inr ⟨cs, by rw [hc]⟩, .nil⟩
      · split at h
        · cases h
        · rename_i arg left hfield
          obtain ⟨hcs, hmax, hform⟩ := scanFieldDescriptor_print hfield
          split at h
          · cases h
          · rename_i hvoid
            split at h
            · cases h
            · rename_i args' rest' hargs
              cases h
              have hlen : left.length ≤ bound := by
                obtain hform | ⟨-, -, hvoid'⟩ := hform
                · obtain ⟨c', cs', ht, -⟩ := hform.1.head
                  have hlen := congrArg List.length hcs
                  rw [ht, length_append, length_cons, length_cons] at hlen
                  rw [length_cons] at hbound
                  omega
                · exact absurd hvoid' hvoid
              obtain ⟨hleft, hend, htypes⟩ := ih hlen hargs
              refine ⟨?_, hend, ?_⟩
              · rw [hcs, hleft, flatMap_cons, append_assoc]
              · obtain hform | ⟨-, -, hvoid'⟩ := hform
                · exact .cons hform.1 hmax htypes
                · exact absurd hvoid' hvoid

theorem scanMethodDescriptor_complete {u : List Char} (h : MethodType slots names t) :
    ∃ m, scanMethodDescriptor (t ++ u) = .ok m ∧ m.print = t ∧ m.names = names ∧
      m.slots = slots := by
  cases h with
  | @intro names names' ps r hp hr =>
    obtain ⟨args, hargs, hprint, hnames, hslots⟩ :=
      scanParameters_complete (r ++ u) hp le_rfl
    obtain ⟨d, hd, hprint', hnames'⟩ :=
      scanFieldDescriptor_of_returnType (r ++ u) u hr
    refine ⟨⟨args, d⟩, ?_, ?_, ?_, hslots⟩
    · have happ : '(' :: (ps ++ ')' :: r) ++ u = '(' :: (ps ++ ')' :: (r ++ u)) := by simp
      rw [happ, scanMethodDescriptor, hargs]
      simp only [hd]
    · unfold ParsedMethodDescriptor.print
      rw [hprint, hprint']
    · unfold ParsedMethodDescriptor.names
      rw [hnames, hnames']

variable {entry : List Char}

theorem scanMethodDescriptor_sound {m : ParsedMethodDescriptor}
    (h : scanMethodDescriptor entry = .ok m) :
    (∃ u, entry = m.print ++ u) ∧ MethodType m.slots m.names m.print := by
  unfold scanMethodDescriptor at h
  split at h
  · rename_i cs
    split at h
    · cases h
    · cases h
    · rename_i args c rest hargs
      split at h
      · cases h
      · rename_i d left hfield
        cases h
        obtain ⟨hcs, hend, htypes⟩ := scanParameters_sound le_rfl hargs
        obtain ⟨hrest, hmax, hform⟩ := scanFieldDescriptor_print hfield
        obtain hnil | ⟨u, hu⟩ := hend
        · cases hnil
        · cases hu
          constructor
          · refine ⟨left, ?_⟩
            unfold ParsedMethodDescriptor.print
            rw [hcs, hrest]
            simp
          · apply MethodType.intro htypes
            obtain ⟨hform, -⟩ | ⟨hprint, hnames, -⟩ := hform
            · exact .field hform hmax
            · show ReturnType d.names d.print
              rw [hprint, hnames]
              exact .void
  · cases h

/-! ### What is accepted -/

/-- `parse_complete_field_descriptor` as the grammar has it. -/
structure FieldParsedRight (entry : List Char) : Prop where
  accepts : (∃ d, parseCompleteFieldDescriptor entry = .ok d) ↔ IsFieldDescriptor entry
  prints : ∀ d, parseCompleteFieldDescriptor entry = .ok d → d.print = entry

/-- `parse_method_descriptor` as the grammar has it. -/
structure MethodParsedRight (entry : List Char) : Prop where
  accepts : (∃ m, scanMethodDescriptor entry = .ok m) ↔ IsMethodDescriptor entry
  prints : ∀ m, scanMethodDescriptor entry = .ok m → m.print = entry

/-- The entries that `parse_complete_field_descriptor` takes for field descriptors. -/
def FieldTextMistaken (entry : List Char) : Prop :=
  entry = ['V'] ∨ ∃ k names, FieldType k names entry ∧ k ≤ 255 ∧ ∃ name ∈ names, ¬ BinaryName name

/-- The entries that `parse_method_descriptor` takes for method descriptors: there is something
behind the result type, there are too many parameters, or a class name is not one. -/
def MethodTextMistaken (entry : List Char) : Prop :=
  ∃ slots names t u, entry = t ++ u ∧ MethodType slots names t ∧
    (u ≠ [] ∨ 255 < slots ∨ ∃ name ∈ names, ¬ BinaryName name)

theorem parseCompleteFieldDescriptor_sound (h : parseCompleteFieldDescriptor entry = .ok d) :
    d.print = entry ∧ d.dimensions ≤ 255 ∧
      (FieldType d.dimensions d.names entry ∨ entry = ['V']) := by
  unfold parseCompleteFieldDescriptor at h
  split at h
  · cases h
  · rename_i d' hd
    cases h
    obtain ⟨hentry, hmax, hform⟩ := scanFieldDescriptor_print hd
    rw [append_nil] at hentry
    rw [hentry]
    refine ⟨rfl, hmax, ?_⟩
    obtain ⟨hform, -⟩ | ⟨hform, -⟩ := hform
    · exact .inl hform
    · exact .inr hform
  · cases h

theorem parseCompleteFieldDescriptor_complete (h : FieldType k names entry) (hk : k ≤ 255) :
    ∃ d, parseCompleteFieldDescriptor entry = .ok d ∧ d.names = names := by
  obtain ⟨d, hd, -, hnames, -⟩ := scanFieldDescriptor_of_type entry [] h hk
  rw [append_nil] at hd
  refine ⟨d, ?_, hnames⟩
  unfold parseCompleteFieldDescriptor
  rw [hd]

theorem FieldType.ne_void (h : FieldType k names ['V']) :
    False := by
  cases h with
  | base h =>
    revert h
    decide

theorem fieldParsedRight_iff (entry : List Char) :
    FieldParsedRight entry ↔ ¬ FieldTextMistaken entry := by
  constructor
  · rintro ⟨haccepts, -⟩ (rfl | ⟨k, names, hform, hk, name, hmem, hname⟩)
    · obtain ⟨k, names, hform, -⟩ := haccepts.mp ⟨_, rfl⟩
      exact hform.ne_void
    · obtain ⟨d, hd, hnames⟩ := parseCompleteFieldDescriptor_complete hform hk
      obtain ⟨k', names', hform', hk', hall⟩ := haccepts.mp ⟨d, hd⟩
      obtain ⟨d', hd', hnames'⟩ := parseCompleteFieldDescriptor_complete hform' hk'
      obtain rfl : d = d' := Except.ok.inj (hd.symm.trans hd')
      apply hname
      apply hall
      rw [← hnames', hnames]
      exact hmem
  · intro h
    constructor
    · constructor
      · rintro ⟨d, hd⟩
        obtain ⟨-, hmax, hform⟩ := parseCompleteFieldDescriptor_sound hd
        rcases hform with hform | hvoid
        · refine ⟨_, _, hform, hmax, ?_⟩
          intro name hmem
          by_contra hname
          exact h (.inr ⟨_, _, hform, hmax, name, hmem, hname⟩)
        · exact absurd (.inl hvoid) h
      · rintro ⟨k, names, hform, hk, -⟩
        obtain ⟨d, hd, -⟩ := parseCompleteFieldDescriptor_complete hform hk
        exact ⟨d, hd⟩
    · intro d hd
      exact (parseCompleteFieldDescriptor_sound hd).1

theorem methodParsedRight_iff (entry : List Char) :
    MethodParsedRight entry ↔ ¬ MethodTextMistaken entry := by
  constructor
  · rintro ⟨haccepts, -⟩ ⟨slots, names, t, u, rfl, hform, hwrong⟩
    obtain ⟨m, hm, hprint, hnames, hslots⟩ := scanMethodDescriptor_complete (u := u) hform
    obtain ⟨slots', names', hform', hslots', hall⟩ := haccepts.mp ⟨m, hm⟩
    obtain ⟨m', hm', hprint', hnames'', hslots''⟩ := scanMethodDescriptor_complete (u := []) hform'
    rw [append_nil] at hm'
    obtain rfl : m = m' := Except.ok.inj (hm.symm.trans hm')
    rcases hwrong with hu | hmany | ⟨name, hmem, hname⟩
    · apply hu
      rw [hprint] at hprint'
      exact append_right_eq_self.mp hprint'.symm
    · omega
    · apply hname
      apply hall
      rw [← hnames'', hnames]
      exact hmem
  · intro h
    constructor
    · constructor
      · rintro ⟨m, hm⟩
        obtain ⟨⟨u, hu⟩, hform⟩ := scanMethodDescriptor_sound hm
        have hnil : u = [] := by
          by_contra hne
          exact h ⟨_, _, _, u, hu, hform, .inl hne⟩
        rw [hnil] at hu
        rw [append_nil] at hu
        refine ⟨m.slots, m.names, ?_, ?_, ?_⟩
        · rw [hu]
          exact hform
        · by_contra hmany
          exact h ⟨_, _, _, [], by rw [hu, append_nil], hform, .inr (.inl (by omega))⟩
        · intro name hmem
          by_contra hname
          exact h ⟨_, _, _, [], by rw [hu, append_nil], hform, .inr (.inr ⟨name, hmem, hname⟩)⟩
      · rintro ⟨slots, names, hform, -⟩
        obtain ⟨m, hm, -⟩ := scanMethodDescriptor_complete (u := []) hform
        rw [append_nil] at hm
        exact ⟨m, hm⟩
    · intro m hm
      obtain ⟨⟨u, hu⟩, hform⟩ := scanMethodDescriptor_sound hm
      have hnil : u = [] := by
        by_contra hne
        exact h ⟨_, _, _, u, hu, hform, .inl hne⟩
      rw [hu, hnil, append_nil]

/-- The parsers accept what the grammar has, with the parsed data printing back to it, on every
text but those of two kinds. -/
theorem descriptorParsers_right_iff (entry : List Char) :
    (FieldParsedRight entry ↔ ¬ FieldTextMistaken entry) ∧
      (MethodParsedRight entry ↔ ¬ MethodTextMistaken entry) :=
  ⟨fieldParsedRight_iff entry, methodParsedRight_iff entry⟩

/-- A field of type `V` and a method of type `()VV` are accepted. -/
theorem descriptorParsers_accept_mistaken :
    parseCompleteFieldDescriptor ['V'] = .ok ⟨.void, .void, 0, none, ['V']⟩ ∧
      ¬ IsFieldDescriptor ['V'] ∧
      scanMethodDescriptor ['(', ')', 'V', 'V'] = .ok ⟨[], ⟨.void, .void, 0, none, ['V']⟩⟩ ∧
      ¬ IsMethodDescriptor ['(', ')', 'V', 'V'] := by
  refine ⟨rfl, ?_, rfl, ?_⟩
  · rintro ⟨k, names, hform, -⟩
    exact hform.ne_void
  · rintro ⟨slots, names, hform, -⟩
    obtain ⟨m, hm, hprint, -⟩ := scanMethodDescriptor_complete (u := []) hform
    cases hm
    revert hprint
    decide

end TraceJvm
