import Synopsis.Proofs.Levels
import Synopsis.Proofs.Spellings

/-!
# What a group of spellings declares

The declarations of a group depend on nothing but its spellings and what they share. They are told
here without a reader: each negated long spelling makes a declaration of its own, the affirmative
long ones share one, and a short one joins the first of these (`Shared.declares`).

`Declaration.WellFormed` is what every declaration that is read has, wherever it stood.
-/

namespace Synopsis

/-- The declarations of a group after one more long spelling. -/
def Shared.addLong (shared : Shared) (declared : List Declaration) (spelling : String) :
    List Declaration :=
  if (optionKey spelling).2 then
    declared ++ [shared.declare (optionKey spelling).1 spelling true]
  else joinAffirmative shared (optionKey spelling).1 spelling declared

/-- The declarations of a group. -/
def Shared.declares (shared : Shared) (spellings : List String) : List Declaration :=
  let declared := (spellings.filter startsLong).foldl shared.addLong []
  match spellings.find? (!startsLong ·) with
  | none => declared
  | some short => joinShort shared short declared

/-- The spellings may stand together in a group. -/
structure Shared.Admits (shared : Shared) (spellings : List String) : Prop where
  distinct : spellings.Nodup
  one_short : (spellings.filter (!startsLong ·)).length ≤ 1
  negated_flag : ∀ spelling ∈ spellings, startsLong spelling → (optionKey spelling).2 →
    shared.value.isFlag

/-- The declaration has these long spellings, and then this short one. -/
structure Declaration.Written (d : Declaration) (longs : List String) (short : Option String) :
    Prop where
  spellings : d.spellings = longs ++ short.toList
  distinct : d.spellings.Nodup
  longs_valid : ∀ spelling ∈ longs, isLongSpelling spelling ∧ (optionKey spelling).2 = d.negated
  short_valid : ∀ spelling ∈ short, isShortSpelling spelling
  /-- The first spelling gives the key. -/
  key : ∃ spelling, d.spellings.head? = some spelling ∧ d.key = (optionKey spelling).1
  /-- A short spelling is an alias of a long one. -/
  shortAlias : d.shortAlias = if longs = [] then none else short.bind (·.toList[1]?)
  negated : d.negated → longs.length = 1 ∧ d.value.isFlag

def Declaration.WellFormed (d : Declaration) : Prop := ∃ longs short, d.Written longs short

/-- The declaration has what its group shares. -/
structure Declaration.Shares (d : Declaration) (shared : Shared) : Prop where
  value : d.value = shared.value
  metavar : d.metavar = shared.metavar
  recurs : d.recurs = shared.recurs
  note : d.note = shared.note

/-! ## What is declared is well formed -/

section Joining

variable {shared : Shared} {key spelling : String} {ds : List Declaration}
  {P : Declaration → Prop}

theorem forall_joinAffirmative (hnew : P (shared.declare key spelling false))
    (hjoin : ∀ d ∈ ds, d.negated = false → P { d with spellings := d.spellings ++ [spelling] })
    (hold : ∀ d ∈ ds, P d) : ∀ d ∈ joinAffirmative shared key spelling ds, P d := by
  induction ds with
  | nil => simpa [joinAffirmative] using hnew
  | cons d ds ih =>
    rw [List.forall_mem_cons] at hold hjoin
    rw [joinAffirmative]
    split
    · exact List.forall_mem_cons.2 ⟨hold.1, ih hjoin.2 hold.2⟩
    · next hnegated =>
      exact List.forall_mem_cons.2 ⟨hjoin.1 (by simpa using hnegated), hold.2⟩

theorem forall_joinShort
    (hnew : P (shared.declare (optionKey spelling).1 spelling false))
    (hjoin : ∀ d ∈ ds,
      P { d with shortAlias := spelling.toList[1]?, spellings := d.spellings ++ [spelling] })
    (hold : ∀ d ∈ ds, P d) : ∀ d ∈ joinShort shared spelling ds, P d := by
  cases ds with
  | nil => simpa [joinShort] using hnew
  | cons d ds =>
    rw [List.forall_mem_cons] at hold hjoin
    exact List.forall_mem_cons.2 ⟨hjoin.1, hold.2⟩

end Joining

namespace Declaration.Written

variable {d : Declaration} {spelling : String}

theorem join_long (h : d.Written d.spellings none) (hside : d.negated = false)
    (hlong : isLongSpelling spelling) (haffirmative : (optionKey spelling).2 = false)
    (hnew : spelling ∉ d.spellings) :
    ({ d with spellings := d.spellings ++ [spelling] } : Declaration).Written
      (d.spellings ++ [spelling]) none where
  spellings := by simp
  distinct := by
    rw [List.nodup_append]
    refine ⟨h.distinct, by simp, ?_⟩
    rintro x hx y hy rfl
    exact hnew (List.mem_singleton.1 hy ▸ hx)
  longs_valid := by
    intro x hx
    rcases List.mem_append.1 hx with hx | hx
    · exact h.longs_valid x hx
    · rw [List.mem_singleton.1 hx]
      exact ⟨hlong, haffirmative.trans hside.symm⟩
  short_valid := by simp
  key := by
    obtain ⟨first, hfirst, hkey⟩ := h.key
    exact ⟨first, by simp [hfirst], hkey⟩
  shortAlias := by
    rw [if_neg (by simp)]
    simpa using h.shortAlias
  negated hnegated := by simp [hside] at hnegated

theorem join_short (h : d.Written d.spellings none) (hshort : isShortSpelling spelling)
    (hnew : spelling ∉ d.spellings) :
    ({ d with shortAlias := spelling.toList[1]?, spellings := d.spellings ++ [spelling] } :
      Declaration).Written d.spellings (some spelling) where
  spellings := rfl
  distinct := by
    rw [List.nodup_append]
    refine ⟨h.distinct, by simp, ?_⟩
    rintro x hx y hy rfl
    exact hnew (List.mem_singleton.1 hy ▸ hx)
  longs_valid := h.longs_valid
  short_valid := by simpa using hshort
  key := by
    obtain ⟨first, hfirst, hkey⟩ := h.key
    exact ⟨first, by simp [hfirst], hkey⟩
  shortAlias := by
    obtain ⟨first, hfirst, -⟩ := h.key
    have hne : d.spellings ≠ [] := by
      intro hnil
      simp [hnil] at hfirst
    simp [hne]
  negated := h.negated

end Declaration.Written

theorem Declaration.WellFormed.isOptionKey {d : Declaration} (h : d.WellFormed) :
    IsOptionKey d.key := by
  obtain ⟨longs, short, hwritten⟩ := h
  obtain ⟨spelling, hhead, hkey⟩ := hwritten.key
  have hmem : spelling ∈ longs ++ short.toList := by
    rw [← hwritten.spellings]
    exact List.mem_of_mem_head? hhead
  rw [hkey]
  rcases List.mem_append.1 hmem with hlong | hshort
  · exact isOptionKey_of_long (hwritten.longs_valid spelling hlong).1
  · exact isOptionKey_of_short (hwritten.short_valid spelling (by simpa using hshort))

namespace Shared

variable {shared : Shared}

theorem written_declare {spelling : String} (h : isLongSpelling spelling)
    (hflag : (optionKey spelling).2 → shared.value.isFlag) :
    (shared.declare (optionKey spelling).1 spelling (optionKey spelling).2).Written
      [spelling] none where
  spellings := rfl
  distinct := by simp [declare]
  longs_valid := by simp [declare, h]
  short_valid := by simp
  key := ⟨spelling, rfl, rfl⟩
  shortAlias := rfl
  negated hnegated := ⟨rfl, hflag hnegated⟩

theorem written_declare_short {spelling : String} (h : isShortSpelling spelling) :
    (shared.declare (optionKey spelling).1 spelling false).Written [] (some spelling) where
  spellings := rfl
  distinct := by simp [declare]
  longs_valid := by simp
  short_valid := by simpa using h
  key := ⟨spelling, rfl, rfl⟩
  shortAlias := rfl
  negated hnegated := by simp [declare] at hnegated

/-- What the long spellings of a group declare, after any others. -/
theorem written_foldl_addLong {spellings seen : List String} {declared : List Declaration}
    (hvalid : ∀ spelling ∈ spellings, isLongSpelling spelling)
    (hflag : ∀ spelling ∈ spellings, (optionKey spelling).2 → shared.value.isFlag)
    (hdistinct : (seen ++ spellings).Nodup)
    (hdeclared : ∀ d ∈ declared, d.Shares shared ∧ d.Written d.spellings none ∧
      ∀ spelling ∈ d.spellings, spelling ∈ seen) :
    ∀ d ∈ spellings.foldl shared.addLong declared, d.Shares shared ∧ d.Written d.spellings none ∧
      ∀ spelling ∈ d.spellings, spelling ∈ seen ++ spellings := by
  induction spellings generalizing seen declared with
  | nil => simpa using hdeclared
  | cons spelling spellings ih =>
    rw [List.forall_mem_cons] at hvalid hflag
    have hnew : spelling ∉ seen := by
      intro hmem
      rw [List.nodup_append] at hdistinct
      exact hdistinct.2.2 _ hmem _ (by simp) rfl
    have hrest : (seen ++ [spelling] ++ spellings).Nodup := by simpa using hdistinct
    rw [List.foldl_cons]
    have hstep := @ih (seen ++ [spelling]) (shared.addLong declared spelling) hvalid.2 hflag.2 hrest ?_
    · simpa using hstep
    · have hdeclare : (shared.declare (optionKey spelling).1 spelling (optionKey spelling).2).Shares
          shared ∧ _ := ⟨⟨rfl, rfl, rfl, rfl⟩, written_declare hvalid.1 hflag.1⟩
      cases hnegated : (optionKey spelling).2 <;> rw [hnegated] at hdeclare
      · rw [addLong, if_neg (by simp [hnegated])]
        refine forall_joinAffirmative ?_ ?_ ?_
        · exact ⟨hdeclare.1, hdeclare.2, by simp [declare]⟩
        · intro d hd hside
          obtain ⟨hshares, hwritten, hseen⟩ := hdeclared d hd
          have hjoin := hwritten.join_long hside hvalid.1 hnegated fun hmem => hnew (hseen _ hmem)
          refine ⟨⟨hshares.value, hshares.metavar, hshares.recurs, hshares.note⟩, hjoin, ?_⟩
          intro x hx
          rcases List.mem_append.1 hx with hx | hx
          · simp [hseen x hx]
          · simpa using Or.inr (List.mem_singleton.1 hx)
        · intro d hd
          obtain ⟨hshares, hwritten, hseen⟩ := hdeclared d hd
          exact ⟨hshares, hwritten, fun x hx => by simp [hseen x hx]⟩
      · rw [addLong, if_pos hnegated]
        intro d hd
        rcases List.mem_append.1 hd with hd | hd
        · obtain ⟨hshares, hwritten, hseen⟩ := hdeclared d hd
          exact ⟨hshares, hwritten, fun x hx => by simp [hseen x hx]⟩
        · obtain rfl := List.mem_singleton.1 hd
          exact ⟨hdeclare.1, hdeclare.2, by simp [declare]⟩

/-- **Every declaration of a group is well formed and has what the group shares.** -/
theorem wellFormed_of_declares {spellings : List String}
    (hvalid : ∀ spelling ∈ spellings, isLongSpelling spelling ∨ isShortSpelling spelling)
    (h : shared.Admits spellings) :
    ∀ d ∈ shared.declares spellings, d.Shares shared ∧ d.WellFormed := by
  have hlongs : ∀ spelling ∈ spellings.filter startsLong, isLongSpelling spelling := by
    intro spelling hspelling
    obtain ⟨hmem, hlong⟩ := List.mem_filter.1 hspelling
    refine (hvalid spelling hmem).resolve_right fun hshort => ?_
    simp [startsLong_of_isShortSpelling hshort] at hlong
  have hbase := @written_foldl_addLong shared (spellings.filter startsLong) [] [] hlongs
    (fun spelling hspelling => h.negated_flag spelling (List.mem_filter.1 hspelling).1
      (List.mem_filter.1 hspelling).2)
    (by simpa using h.distinct.filter _) (by simp)
  unfold declares
  cases hfind : spellings.find? (!startsLong ·) with
  | none =>
    intro d hd
    obtain ⟨hshares, hwritten, -⟩ := hbase d hd
    exact ⟨hshares, _, _, hwritten⟩
  | some short =>
    have hnot : startsLong short = false := by simpa using List.find?_some hfind
    have hshort : isShortSpelling short := by
      refine (hvalid short (List.mem_of_find?_eq_some hfind)).resolve_left fun hlong => ?_
      simp [startsLong_of_isLongSpelling hlong] at hnot
    refine forall_joinShort ?_ ?_ ?_
    · exact ⟨⟨rfl, rfl, rfl, rfl⟩, _, _, written_declare_short hshort⟩
    · intro d hd
      obtain ⟨hshares, hwritten, hseen⟩ := hbase d hd
      refine ⟨⟨hshares.value, hshares.metavar, hshares.recurs, hshares.note⟩, _, _,
        hwritten.join_short hshort fun hmem => ?_⟩
      have := hseen short hmem
      simp [hnot] at this
    · intro d hd
      obtain ⟨hshares, hwritten, -⟩ := hbase d hd
      exact ⟨hshares, _, _, hwritten⟩

end Shared

namespace Reader

variable {s s' : ReaderState}

theorem rejectRepeats_ok_iff {seen : List String} {spellings : List (String × Nat)} {u : Unit} :
    rejectRepeats seen spellings s = .ok u s' ↔
      ((spellings.map (·.1)).Nodup ∧ ∀ spelling ∈ spellings.map (·.1), spelling ∉ seen) ∧
        s' = s := by
  induction spellings generalizing seen with
  | nil => simp [rejectRepeats]
  | cons spelling spellings ih =>
    obtain ⟨spelling, start⟩ := spelling
    simp only [List.map_cons, List.nodup_cons, List.forall_mem_cons]
    by_cases hseen : spelling ∈ seen
    · simp [rejectRepeats, hseen]
    · simp only [rejectRepeats, hseen, if_false, ih]
      generalize spellings.map (·.1) = names
      simp only [List.mem_cons, not_or, not_false_eq_true, true_and, and_congr_left_iff]
      rintro -
      constructor
      · rintro ⟨hnodup, hnames⟩
        exact ⟨⟨fun hmem => (hnames _ hmem).1 rfl, hnodup⟩, fun x hx => (hnames x hx).2⟩
      · rintro ⟨⟨hmem, hnodup⟩, hnames⟩
        refine ⟨hnodup, fun x hx => ⟨?_, hnames x hx⟩⟩
        rintro rfl
        exact hmem hx

theorem declareLong_ok_iff {shared : Shared} {spellings : List (String × Nat)}
    {declared declared' : List Declaration} {short short' : Option String} :
    declareLong shared spellings declared short s = .ok (declared', short') s' ↔
      (∀ spelling ∈ spellings.map (·.1), startsLong spelling → (optionKey spelling).2 →
        shared.value.isFlag) ∧
      (short.toList ++ (spellings.map (·.1)).filter (!startsLong ·)).length ≤ 1 ∧
      declared' = ((spellings.map (·.1)).filter startsLong).foldl shared.addLong declared ∧
      short' = short.or ((spellings.map (·.1)).find? (!startsLong ·)) ∧ s' = s := by
  induction spellings generalizing declared short with
  | nil =>
    cases short <;> simp [declareLong, and_assoc]
  | cons spelling spellings ih =>
    obtain ⟨spelling, start⟩ := spelling
    cases hlong : startsLong spelling
    · cases short <;> simp [declareLong, hlong, ih]
    · cases hnegated : (optionKey spelling).2
      · simp [declareLong, hlong, hnegated, ih, Shared.addLong]
      · cases hflag : shared.value.isFlag <;>
          simp [declareLong, hlong, hnegated, hflag, ih, Shared.addLong]

theorem declarations_ok_iff {spellings : List (String × Nat)} {shared : Shared}
    {declared : List Declaration} :
    declarations spellings shared s = .ok declared s' ↔
      shared.Admits (spellings.map (·.1)) ∧ declared = shared.declares (spellings.map (·.1)) ∧
        s' = s := by
  simp only [declarations, keeping_bind_ok_iff, rejectRepeats_ok_iff]
  constructor
  · rintro ⟨-, _, ⟨⟨hnodup, -⟩, rfl⟩, ⟨base, short⟩, _, hlong, h⟩
    obtain ⟨hflag, hone, rfl, rfl, rfl⟩ := declareLong_ok_iff.1 hlong
    refine ⟨⟨hnodup, by simpa using hone, hflag⟩, ?_⟩
    unfold Shared.declares
    cases hshort : (spellings.map (·.1)).find? (!startsLong ·) <;> simpa [hshort] using h
  · rintro ⟨⟨hnodup, hone, hflag⟩, rfl, rfl⟩
    refine ⟨(), s', ⟨⟨hnodup, by simp⟩, rfl⟩, _, s', declareLong_ok_iff.2
      ⟨hflag, by simpa using hone, rfl, rfl, rfl⟩, ?_⟩
    unfold Shared.declares
    cases (spellings.map (·.1)).find? (!startsLong ·) <;> simp

/-! ## The options of a text -/

end Reader

/-- A type and its label, and what is known before and after they are read. -/
inductive ReadsType : Known → ValueType → (label : String) → Known → Prop
  | identifier {k : Known} {label name : String} {number : Option String} {type : ValueType}
      {r : Registry} (hid : IsIdentifier label)
      (hname : readIdentifier label = .ok (name, number))
      (htype : Registry.resolve name k.registry = .ok type r) :
      ReadsType k type label ⟨r, k.numbered⟩
  | group {k : Known} {label : String} {group : Alternatives} {type : ValueType} {r : Registry}
      (hgroup : GroupText label.toList group)
      (htype : group.resolve k.registry = .ok type r) : ReadsType k type label ⟨r, k.numbered⟩

/-- The value that an option takes and its label. -/
inductive ReadsValue : Known → TakenValue → (metavar : Option String) → Known → Prop
  | flag {k : Known} : ReadsValue k .flag none k
  | required {k k' : Known} {type : ValueType} {label : String} (h : ReadsType k type label k') :
      ReadsValue k (.required type) (some label) k'
  | optional {k k' : Known} {type : ValueType} {label : String} (h : ReadsType k type label k') :
      ReadsValue k (.optional type) (some label) k'

/-- The declarations of one group. -/
inductive ReadsGroup : Known → List Declaration → Known → Prop
  | mk {k k' : Known} {spellings : List String} {shared : Shared} (hne : spellings ≠ [])
      (hvalid : ∀ spelling ∈ spellings, isLongSpelling spelling ∨ isShortSpelling spelling)
      (hadmits : shared.Admits spellings)
      (hvalue : ReadsValue k shared.value shared.metavar k') :
      ReadsGroup k (shared.declares spellings) k'

/-- The declarations of a text, and what is known before and after they are read. -/
inductive ReadsOptions : Known → (mandatory optional : List Declaration) → Known → Prop
  | done {k : Known} : ReadsOptions k [] [] k
  | optional {k k₁ k' : Known} {declared mandatory optional : List Declaration}
      (h : ReadsGroup k declared k₁) (rest : ReadsOptions k₁ mandatory optional k') :
      ReadsOptions k mandatory (declared ++ optional) k'
  | mandatory {k k₁ k' : Known} {declared mandatory optional : List Declaration}
      (h : ReadsGroup k declared k₁) (rest : ReadsOptions k₁ mandatory optional k') :
      ReadsOptions k (declared ++ mandatory) optional k'

namespace Reader

variable {s s' : ReaderState}

theorem spelling_ok_iff {found : String × Nat} :
    spelling s = .ok found s' ↔
      (isLongSpelling found.1 ∨ isShortSpelling found.1) ∧
        found = (String.ofList (Lexeme.option s.rest), s.offset) ∧
        s' = s.advance (Lexeme.option s.rest).length := by
  have hne (h : isLongSpelling (String.ofList (Lexeme.option s.rest)) = true ∨
      isShortSpelling (String.ofList (Lexeme.option s.rest)) = true) : Lexeme.option s.rest ≠ [] := by
    intro hnil
    simp [hnil, isLongSpelling, isShortSpelling] at h
  simp only [spelling, keeping_bind_ok_iff, offset_ok_iff, accept_ok_iff]
  constructor
  · rintro ⟨_, _, ⟨rfl, hs⟩, _, _, ⟨rfl, rfl⟩, h⟩
    rw [hs] at h
    obtain ⟨-, hvalid, rfl, rfl⟩ := by simpa using h
    exact ⟨hvalid, rfl, rfl⟩
  · rintro ⟨hvalid, rfl, rfl⟩
    refine ⟨_, _, ⟨rfl, rfl⟩, _, _, ⟨rfl, rfl⟩, ?_⟩
    simpa [hne hvalid] using hvalid

theorem spellings_succ_ok_iff {fuel : Nat} {found : List (String × Nat)} :
    spellings (fuel + 1) s = .ok found s' ↔
      ∃ first s₁, spelling s = .ok first s₁ ∧
        (Lexeme.startsWith "|" (trimStart s₁.rest) = true ∧
          (∃ more, spellings fuel (pastBlanks (past "|" (pastBlanks s₁))) = .ok more s' ∧
            found = first :: more) ∨
        Lexeme.startsWith "|" (trimStart s₁.rest) = false ∧ found = [first] ∧
          s' = pastBlanks s₁) := by
  rw [spellings, keeping_bind_ok_iff]
  refine exists_congr fun first => exists_congr fun s₁ => and_congr_right fun _ => ?_
  cases h : Lexeme.startsWith "|" (trimStart s₁.rest) <;> simp [h]

theorem valueType_ok_iff {type : ValueType} {label : String} :
    valueType s = .ok (type, label) s' ↔
      (Lexeme.startsWith "(" s.rest = true ∧ ∃ group s₁ r, alternatives s = .ok group s₁ ∧
        group.resolve s₁.registry = .ok type r ∧ s' = { s₁ with registry := r } ∧
        label = String.ofList (s.rest.take (s.rest.length - s₁.rest.length))) ∨
      (Lexeme.startsWith "(" s.rest = false ∧ Lexeme.identifier s.rest ≠ [] ∧
        label = String.ofList (Lexeme.identifier s.rest) ∧
        ∃ name number r, readIdentifier label = .ok (name, number) ∧
          Registry.resolve name s.registry = .ok type r ∧
          s' = { s.advance (Lexeme.identifier s.rest).length with registry := r }) := by
  rcases hopen : Lexeme.startsWith "(" s.rest with _ | _
  · simp [valueType, hopen]
    intro _
    constructor
    · rintro ⟨name, hname, ⟨r, htype, rfl⟩, rfl⟩
      exact ⟨rfl, name, hname, r, htype, rfl⟩
    · rintro ⟨rfl, name, hname, r, htype, rfl⟩
      exact ⟨name, hname, ⟨r, htype, rfl⟩, rfl⟩
  · simp [valueType, alternativesType_eq, hopen]

theorem takenValue_ok_iff {value : TakenValue} {metavar : Option String} :
    takenValue s = .ok (value, metavar) s' ↔
      (Lexeme.startsWith "=" s.rest = true ∧ ∃ type label,
        valueType (past "=" s) = .ok (type, label) s' ∧ value = .required type ∧
        metavar = some label) ∨
      (Lexeme.startsWith "=" s.rest = false ∧ Lexeme.startsWith "[=" s.rest = true ∧
        ∃ type label s₁, valueType (past "[=" s) = .ok (type, label) s₁ ∧
        Lexeme.startsWith "]" s₁.rest = true ∧ value = .optional type ∧ metavar = some label ∧
        s' = past "]" s₁) ∨
      (Lexeme.startsWith "=" s.rest = false ∧ Lexeme.startsWith "[=" s.rest = false ∧
        value = .flag ∧ metavar = none ∧ s' = s) := by
  rcases hrequired : Lexeme.startsWith "=" s.rest with _ | _
  · rcases hoptional : Lexeme.startsWith "[=" s.rest with _ | _ <;>
      simp [takenValue, past_of_not hrequired, hrequired, hoptional, past_of_not, and_assoc]
  · simp [takenValue, hrequired]

theorem optionGroup_ok_iff {opener closer : String} {declared : List Declaration}
    (hopen : Lexeme.startsWith opener s.rest = true) :
    optionGroup opener closer s = .ok declared s' ↔
      ∃ found s₁ value metavar s₂ text s₃,
        spellings ((pastBlanks (past opener s)).rest.length + 1) (pastBlanks (past opener s)) =
          .ok found s₁ ∧
        takenValue (pastBlanks s₁) = .ok (value, metavar) s₂ ∧
        Lexeme.startsWith closer (trimStart s₂.rest) = true ∧
        note (past "..." (past closer (pastBlanks s₂))) = .ok text s₃ ∧
        declarations found
          { value, metavar, note := text,
            recurs := Lexeme.startsWith "..." (past closer (pastBlanks s₂)).rest } s₃ =
          .ok declared s' := by
  simp [optionGroup, hopen]

theorem bareOption_ok_iff {declared : List Declaration} :
    bareOption s = .ok declared s' ↔
      ∃ found s₁ value metavar s₂ text s₃,
        spelling s = .ok found s₁ ∧ takenValue s₁ = .ok (value, metavar) s₂ ∧
        Lexeme.atBoundary (past "..." s₂).rest = true ∧ note (past "..." s₂) = .ok text s₃ ∧
        declarations [found]
          { value, metavar, recurs := Lexeme.startsWith "..." s₂.rest, note := text } s₃ =
          .ok declared s' := by
  simp [bareOption]

theorem valueType_reads {type : ValueType} {label : String}
    (h : valueType s = .ok (type, label) s') : ReadsType s.known type label s'.known := by
  rcases valueType_ok_iff.1 h with ⟨hopen, group, s₁, r, hgroup, htype, rfl, rfl⟩ |
    ⟨-, hid, rfl, name, number, r, hname, htype, rfl⟩
  · obtain ⟨cs, hcs, htext, hknown⟩ := alternatives_sound hopen hgroup
    have hregistry : s₁.registry = s.known.registry := congrArg Known.registry hknown
    have hnumbered : s₁.numbered = s.known.numbered := congrArg Known.numbered hknown
    have htake : s.rest.take (s.rest.length - s₁.rest.length) = cs := by simp [hcs]
    rw [hregistry] at htype
    simp only [ReaderState.known, hnumbered, htake]
    exact .group (by simpa using htext) htype
  · have hid' : IsIdentifier (String.ofList (Lexeme.identifier s.rest)) := by
      simpa [IsIdentifier] using Lexeme.isWhole_identifier hid
    exact .identifier hid' hname htype

theorem takenValue_reads {value : TakenValue} {metavar : Option String}
    (h : takenValue s = .ok (value, metavar) s') :
    ReadsValue s.known value metavar s'.known := by
  rcases takenValue_ok_iff.1 h with ⟨-, type, label, htype, rfl, rfl⟩ |
    ⟨-, -, type, label, s₁, htype, -, rfl, rfl, rfl⟩ | ⟨-, -, rfl, rfl, rfl⟩
  · exact .required (by simpa using valueType_reads htype)
  · exact .optional (by simpa using valueType_reads htype)
  · exact .flag

theorem spellings_sound {fuel : Nat} {found : List (String × Nat)}
    (h : spellings (fuel + 1) s = .ok found s') :
    found ≠ [] ∧
      (∀ spelling ∈ found.map (·.1), isLongSpelling spelling ∨ isShortSpelling spelling) ∧
      s'.known = s.known := by
  induction fuel generalizing found s with
  | zero =>
    obtain ⟨first, s₁, hfirst, ⟨-, more, hmore, rfl⟩ | ⟨-, rfl, rfl⟩⟩ := spellings_succ_ok_iff.1 h
    all_goals obtain ⟨hvalid, -, rfl⟩ := spelling_ok_iff.1 hfirst
    · obtain ⟨rfl, rfl⟩ := by simpa [spellings] using hmore
      exact ⟨by simp, by simpa using hvalid, by simp⟩
    · exact ⟨by simp, by simpa using hvalid, by simp⟩
  | succ fuel ih =>
    obtain ⟨first, s₁, hfirst, ⟨-, more, hmore, rfl⟩ | ⟨-, rfl, rfl⟩⟩ := spellings_succ_ok_iff.1 h
    all_goals obtain ⟨hvalid, -, rfl⟩ := spelling_ok_iff.1 hfirst
    · obtain ⟨-, hvalid', hknown⟩ := ih hmore
      refine ⟨by simp, ?_, by simpa using hknown⟩
      rw [List.map_cons]
      exact List.forall_mem_cons.2 ⟨hvalid, hvalid'⟩
    · exact ⟨by simp, by simpa using hvalid, by simp⟩

theorem optionGroup_reads {opener closer : String} {declared : List Declaration}
    (hopen : Lexeme.startsWith opener s.rest = true)
    (h : optionGroup opener closer s = .ok declared s') :
    ReadsGroup s.known declared s'.known := by
  obtain ⟨found, s₁, value, metavar, s₂, text, s₃, hfound, hvalue, -, hnote, hdeclared⟩ :=
    (optionGroup_ok_iff hopen).1 h
  obtain ⟨hne, hvalid, hknown⟩ := spellings_sound hfound
  obtain ⟨hadmits, rfl, hs'⟩ := declarations_ok_iff.1 hdeclared
  have hknown' : s₁.known = s.known := by simpa using hknown
  have hknown₃ : s₃.known = s₂.known := by simpa using known_of_note hnote
  rw [hs', hknown₃, ← hknown', ← known_pastBlanks s₁]
  exact .mk (by simpa using hne) hvalid hadmits (takenValue_reads hvalue)

theorem bareOption_reads {declared : List Declaration} (h : bareOption s = .ok declared s') :
    ReadsGroup s.known declared s'.known := by
  obtain ⟨found, s₁, value, metavar, s₂, text, s₃, hfound, hvalue, -, hnote, hdeclared⟩ :=
    bareOption_ok_iff.1 h
  obtain ⟨hvalid, -, rfl⟩ := spelling_ok_iff.1 hfound
  obtain ⟨hadmits, rfl, hs'⟩ := declarations_ok_iff.1 hdeclared
  have hknown₃ : s₃.known = s₂.known := by simpa using known_of_note hnote
  rw [hs', hknown₃, ← ReaderState.known_advance s (Lexeme.option s.rest).length]
  exact .mk (by simp) (by simpa using hvalid) hadmits (takenValue_reads hvalue)

theorem optionForm_sound (cs : List Char) :
    match optionForm? cs with
    | some .bracketed => Lexeme.startsWith "[" cs = true
    | some .parenthesized => Lexeme.startsWith "(" cs = true
    | _ => True := by
  have hopen (bracket : Char) (h : Lexeme.opensOption bracket cs = true) :
      Lexeme.startsWith (String.ofList [bracket]) cs = true := by
    cases cs with
    | nil => simp [Lexeme.opensOption] at h
    | cons c cs =>
      simp only [Lexeme.opensOption, Bool.and_eq_true, decide_eq_true_eq] at h
      simp [Lexeme.startsWith, List.isPrefixOf, h.1]
  unfold optionForm?
  split_ifs with hbracket hparenthesis
  · exact hopen '[' hbracket
  · exact hopen '(' hparenthesis
  · trivial
  · trivial

/-- **The options that are read are groups of spellings, one after the other.** -/
theorem options_reads {fuel : Nat} {mandatory optional : List Declaration}
    (h : options fuel s = .ok (mandatory, optional) s') :
    ReadsOptions s.known mandatory optional s'.known := by
  induction fuel generalizing mandatory optional s with
  | zero =>
    obtain ⟨⟨rfl, rfl⟩, rfl⟩ := by simpa [options] using h
    exact .done
  | succ fuel ih =>
    simp only [options, keeping_bind_ok_iff, skipBlanks_ok_iff, remaining_ok_iff] at h
    obtain ⟨-, _, rfl, _, _, ⟨rfl, rfl⟩, h⟩ := h
    have hform := optionForm_sound (pastBlanks s).rest
    rw [← known_pastBlanks s]
    generalize pastBlanks s = s at h hform ⊢
    rcases hcase : optionForm? s.rest with _ | _ | _ | _ <;> rw [hcase] at h hform <;>
      simp only [keeping_bind_ok_iff, keeping_pure_ok_iff] at h
    · obtain ⟨heq, rfl⟩ := h
      cases heq
      exact .done
    · obtain ⟨declared, s₁, hgroup, ⟨m, o⟩, s₂, hrest, heq, rfl⟩ := h
      cases heq
      exact .optional (optionGroup_reads hform hgroup) (ih hrest)
    · obtain ⟨declared, s₁, hgroup, ⟨m, o⟩, s₂, hrest, heq, rfl⟩ := h
      cases heq
      exact .mandatory (optionGroup_reads hform hgroup) (ih hrest)
    · obtain ⟨declared, s₁, hgroup, ⟨m, o⟩, s₂, hrest, heq, rfl⟩ := h
      cases heq
      exact .mandatory (bareOption_reads hgroup) (ih hrest)

end Reader

namespace ReadsOptions

variable {k k' : Known} {mandatory optional : List Declaration}

/-- **Every declaration that is read is well formed.** -/
theorem wellFormed (h : ReadsOptions k mandatory optional k') :
    ∀ d ∈ mandatory ++ optional, d.WellFormed := by
  have hgroup {k k' : Known} {declared : List Declaration} (h : ReadsGroup k declared k') :
      ∀ d ∈ declared, d.WellFormed := by
    cases h with
    | mk hne hvalid hadmits hvalue =>
      exact fun d hd => (Shared.wellFormed_of_declares hvalid hadmits d hd).2
  induction h with
  | done => simp
  | optional h rest ih =>
    intro d hd
    simp only [List.mem_append] at hd ih
    rcases hd with hd | hd | hd
    · exact ih d (Or.inl hd)
    · exact hgroup h d hd
    · exact ih d (Or.inr hd)
  | mandatory h rest ih =>
    intro d hd
    simp only [List.mem_append] at hd ih
    rcases hd with (hd | hd) | hd
    · exact hgroup h d hd
    · exact ih d (Or.inl hd)
    · exact ih d (Or.inr hd)

end ReadsOptions

end Synopsis
