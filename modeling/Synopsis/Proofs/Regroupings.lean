import Synopsis.Proofs.OptionTexts
import Synopsis.Proofs.Switches

/-!
# What a described option is read back as

A described option is one group, so its declarations are those of one group. An option that was made
of one declaration comes back as it was, without its note (`rebuilds_one`). A switch with two sides
comes back as it was where it is *separate* (`OptionSpec.Separate`): one of its affirmative
spellings is long, and none of its negated ones is short (`rebuilds_two`). Otherwise the short
spelling goes to the other side, or there are two of them, which no group may have: a group never
declares both sides of a switch that is not separate (`separate_of_regrouped`).
-/

namespace Synopsis

/-! ## Lists without repeats -/

section Distinct

variable {α : Type} [DecidableEq α]

theorem eraseDups_rec {P : List α → List α → Prop} (hnil : P [] [])
    (hcons : ∀ a as, P (as.filter fun b => !b == a) (as.filter fun b => !b == a).eraseDups →
      P (a :: as) (a :: (as.filter fun b => !b == a).eraseDups)) (as : List α) :
    P as as.eraseDups := by
  induction hlength : as.length using Nat.strong_induction_on generalizing as with
  | _ n ih =>
    cases as with
    | nil => exact hnil
    | cons a as =>
      rw [List.eraseDups_cons]
      refine hcons a as (ih _ ?_ _ rfl)
      rw [← hlength, List.length_cons]
      exact Nat.lt_succ_of_le (List.length_filter_le _ as)

theorem eraseDups_of_nodup {as : List α} (h : as.Nodup) : as.eraseDups = as := by
  refine @eraseDups_rec α _ (fun as bs => as.Nodup → bs = as) (fun _ => rfl) (fun a as ih h => ?_) as h
  obtain ⟨hnew, has⟩ := List.nodup_cons.1 h
  have hsame : as.filter (fun b => !b == a) = as := by
    refine List.filter_eq_self.2 fun b hb => ?_
    have hne : b ≠ a := fun heq => hnew (heq ▸ hb)
    simpa using hne
  rw [hsame] at ih ⊢
  rw [ih has]

theorem filter_eraseDups (p : α → Bool) (as : List α) :
    as.eraseDups.filter p = (as.filter p).eraseDups := by
  refine @eraseDups_rec α _ (fun as bs => bs.filter p = (as.filter p).eraseDups) rfl
    (fun a as ih => ?_) as
  cases hp : p a with
  | true =>
    rw [List.filter_cons_of_pos hp, List.filter_cons_of_pos hp, List.eraseDups_cons, ih,
      List.filter_filter, List.filter_filter]
    simp only [Bool.and_comm]
  | false =>
    rw [List.filter_cons_of_neg (by simp [hp]), List.filter_cons_of_neg (by simp [hp]), ih,
      List.filter_filter]
    congr 1
    refine List.filter_congr fun b _ => ?_
    by_cases heq : b = a
    · simp [heq, hp]
    · simp [heq]

end Distinct

theorem TakenValue.eq_flag {value : TakenValue} (h : value.isFlag) : value = .flag := by
  cases value with
  | flag => rfl
  | required => simp [isFlag] at h
  | optional => simp [isFlag] at h

/-! ## Groups that declare one option -/

namespace Shared

variable {shared : Shared}

/-- Further affirmative spellings join the first declaration. -/
theorem foldl_addLong_affirmative {texts : List String}
    (htexts : ∀ text ∈ texts, (optionKey text).2 = false) {d : Declaration}
    (hd : d.negated = false) (ds : List Declaration) :
    texts.foldl shared.addLong (d :: ds) =
      { d with spellings := d.spellings ++ texts } :: ds := by
  induction texts generalizing d with
  | nil => simp
  | cons text texts ih =>
    rw [List.forall_mem_cons] at htexts
    have hstep : shared.addLong (d :: ds) text =
        { d with spellings := d.spellings ++ [text] } :: ds := by
      simp [addLong, htexts.1, joinAffirmative, hd]
    have hrest := @ih htexts.2 { d with spellings := d.spellings ++ [text] } hd
    rw [List.foldl_cons, hstep, hrest, List.append_assoc]
    rfl

/-- The declaration of affirmative long spellings. -/
def affirmative (shared : Shared) (first : String) (texts : List String) : Declaration :=
  { shared.declare (optionKey first).1 first false with spellings := first :: texts }

/-- The declaration of a negated spelling. -/
def negative (shared : Shared) (text : String) : Declaration :=
  shared.declare (optionKey text).1 text true

theorem foldl_addLong_first {first : String} {texts : List String}
    (hfirst : (optionKey first).2 = false) (htexts : ∀ text ∈ texts, (optionKey text).2 = false) :
    (first :: texts).foldl shared.addLong [] = [shared.affirmative first texts] := by
  have hstep : shared.addLong [] first = [shared.declare (optionKey first).1 first false] := by
    simp [addLong, hfirst, joinAffirmative]
  rw [List.foldl_cons, hstep, foldl_addLong_affirmative htexts rfl]
  rfl

theorem addLong_negative {text : String} (h : (optionKey text).2 = true)
    (ds : List Declaration) : shared.addLong ds text = ds ++ [shared.negative text] := by
  rw [addLong, if_pos h]
  rfl

/-- Affirmative long spellings and a negated one make a declaration for each side. -/
theorem foldl_addLong_sides {first text : String} {texts : List String}
    (hfirst : (optionKey first).2 = false) (htexts : ∀ text ∈ texts, (optionKey text).2 = false)
    (htext : (optionKey text).2 = true) :
    (first :: texts ++ [text]).foldl shared.addLong [] =
      [shared.affirmative first texts, shared.negative text] := by
  rw [List.foldl_append, foldl_addLong_first hfirst htexts, List.foldl_cons, addLong_negative htext]
  rfl

end Shared

/-- The declaration with a short spelling, if there is one. -/
def Declaration.withShort (d : Declaration) : Option String → Declaration
  | none => d
  | some short =>
    { d with shortAlias := short.toList[1]?, spellings := d.spellings ++ [short] }

/-- The declaration without its note. -/
def Declaration.bare (d : Declaration) : Declaration := { d with note := none }

/-- The short spelling of a group joins the first declaration of its long ones. -/
theorem Shared.declares_of_cons {shared : Shared} {texts longs : List String}
    {short : Option String} {d : Declaration} {ds : List Declaration}
    (hlongs : texts.filter startsLong = longs)
    (hshort : (texts.filter (!startsLong ·)).head? = short)
    (h : longs.foldl shared.addLong [] = d :: ds) :
    shared.declares texts = d.withShort short :: ds := by
  unfold declares
  rw [hlongs, h, ← List.head?_filter, hshort]
  cases short <;> rfl

theorem Shared.declares_of_nil {shared : Shared} {texts : List String} {short : String}
    (hlongs : texts.filter startsLong = [])
    (hshort : (texts.filter (!startsLong ·)).head? = some short) :
    shared.declares texts = [shared.declare (optionKey short).1 short false] := by
  unfold declares
  rw [hlongs, ← List.head?_filter, hshort]
  rfl

/-! ## The declarations of an option, told by their spellings -/

namespace Declaration.Written

variable {d : Declaration} {longs : List String} {short : Option String} {shared : Shared}

theorem filter_long (h : d.Written longs short) : d.spellings.filter startsLong = longs := by
  have hlongs : longs.filter startsLong = longs :=
    List.filter_eq_self.2 fun text htext => startsLong_of_isLongSpelling (h.longs_valid text htext).1
  have hshort : short.toList.filter startsLong = [] := by
    refine List.filter_eq_nil_iff.2 fun text htext => ?_
    rw [startsLong_of_isShortSpelling (h.short_valid text (by simpa using htext))]
    decide
  rw [h.spellings, List.filter_append, hlongs, hshort, List.append_nil]

theorem filter_short (h : d.Written longs short) :
    d.spellings.filter (!startsLong ·) = short.toList := by
  have hlongs : longs.filter (!startsLong ·) = [] := by
    refine List.filter_eq_nil_iff.2 fun text htext => ?_
    rw [startsLong_of_isLongSpelling (h.longs_valid text htext).1]
    decide
  have hshort : short.toList.filter (!startsLong ·) = short.toList := by
    refine List.filter_eq_self.2 fun text htext => ?_
    rw [startsLong_of_isShortSpelling (h.short_valid text (by simpa using htext))]
    rfl
  rw [h.spellings, List.filter_append, hlongs, hshort, List.nil_append]

theorem key_eq (h : d.Written longs short) {first : String} (hfirst : longs.head? = some first) :
    d.key = (optionKey first).1 := by
  obtain ⟨spelling, hhead, hkey⟩ := h.key
  rw [h.spellings, List.head?_append, hfirst] at hhead
  obtain rfl := Option.some.inj hhead
  exact hkey

/-- A declaration is told by its spellings, its side and what its group shares. -/
theorem bare_eq (h : d.Written longs short) {text : String} (htext : d.spellings.head? = some text)
    (hshares : d.bare.Shares shared) :
    d.bare =
      { shared.declare (optionKey text).1 text d.negated with
        spellings := d.spellings, shortAlias := d.shortAlias } := by
  obtain ⟨spelling, hhead, hkey⟩ := h.key
  obtain rfl : text = spelling := Option.some_injective _ (htext.symm.trans hhead)
  obtain ⟨key, spellings, shortAlias, negated, value, metavar, recurs, note⟩ := d
  obtain ⟨value', metavar', recurs', note'⟩ := shared
  obtain ⟨rfl, rfl, rfl, rfl⟩ := hshares
  obtain rfl : key = _ := hkey
  rfl

theorem bare_affirmative {first : String} {texts : List String}
    (h : d.Written (first :: texts) short) (hside : d.negated = false) (hshares : d.bare.Shares shared) :
    d.bare = (shared.affirmative first texts).withShort short := by
  rw [h.bare_eq (by rw [h.spellings]; rfl) hshares, hside, h.shortAlias, h.spellings]
  cases short <;> simp [withShort, Shared.affirmative, Shared.declare]

theorem bare_negative {text : String} (h : d.Written [text] short) (hside : d.negated = true)
    (hshares : d.bare.Shares shared) : d.bare = (shared.negative text).withShort short := by
  rw [h.bare_eq (by rw [h.spellings]; rfl) hshares, hside, h.shortAlias, h.spellings]
  cases short <;> simp [withShort, Shared.negative, Shared.declare]

theorem bare_short {text : String} (h : d.Written [] (some text)) (hshares : d.bare.Shares shared) :
    d.bare = shared.declare (optionKey text).1 text false := by
  have hside : d.negated = false := by
    by_contra hnegated
    simp at hnegated
    simpa using (h.negated hnegated).1
  rw [h.bare_eq (by rw [h.spellings]; rfl) hshares, hside, h.shortAlias, h.spellings]
  rfl

end Declaration.Written

/-! ## An option of one declaration -/

section One

variable {d : Declaration} {shared : Shared}

theorem Declaration.WellFormed.admits (h : d.WellFormed) (hvalue : d.value = shared.value) :
    shared.Admits d.spellings := by
  obtain ⟨longs, short, hwritten⟩ := h
  refine ⟨hwritten.distinct, ?_, fun text htext hlong hnegated => ?_⟩
  · rw [hwritten.filter_short]
    cases short <;> simp
  · have hmem : text ∈ longs := by
      rw [← hwritten.filter_long]
      exact List.mem_filter.2 ⟨htext, hlong⟩
    have hside := (hwritten.longs_valid text hmem).2.symm.trans hnegated
    exact hvalue ▸ (hwritten.negated hside).2

theorem Declaration.WellFormed.declares (h : d.WellFormed) (hshares : d.bare.Shares shared) :
    shared.declares d.spellings = [d.bare] := by
  obtain ⟨longs, short, hwritten⟩ := h
  have hshort : (d.spellings.filter (!startsLong ·)).head? = short := by
    rw [hwritten.filter_short]
    cases short <;> rfl
  have hside (text : String) (htext : text ∈ longs) := (hwritten.longs_valid text htext).2
  cases longs with
  | nil =>
    cases short with
    | none =>
      obtain ⟨spelling, hhead, -⟩ := hwritten.key
      simp [hwritten.spellings] at hhead
    | some short =>
      rw [Shared.declares_of_nil hwritten.filter_long hshort, hwritten.bare_short hshares]
  | cons first longs =>
    rw [List.forall_mem_cons] at hside
    cases hnegated : d.negated with
    | false =>
      rw [hnegated] at hside
      rw [Shared.declares_of_cons hwritten.filter_long hshort
        (Shared.foldl_addLong_first hside.1 hside.2), hwritten.bare_affirmative hnegated hshares]
    | true =>
      have hlength := (hwritten.negated hnegated).1
      obtain rfl : longs = [] := by simpa using hlength
      rw [hnegated] at hside
      have hlongs : [first].foldl shared.addLong [] = [shared.negative first] := by
        rw [List.foldl_cons, Shared.addLong_negative hside.1]
        rfl
      rw [Shared.declares_of_cons hwritten.filter_long hshort hlongs,
        hwritten.bare_negative hnegated hshares]

end One

namespace OptionSpec

variable {boolean count : ValueType}

/-- What reading the described option and reconciling it comes to. -/
structure Rebuilds (boolean count : ValueType) (o o' : OptionSpec) : Prop where
  key : ∀ d ∈ o.regrouped, d.key = o.key
  made : (o.regrouped.map (o.mandatory, ·)).foldlM (declare boolean count) [] = .ok [o']

/-- The short and the long spellings of a switch with two sides can be told from its description:
one of its affirmative spellings is long, and none of its negated ones is short. -/
def Separate (o : OptionSpec) : Prop :=
  o.polarity = some .both →
    (∃ spelling ∈ o.spellings, isLongSpelling spelling) ∧
      ∀ spelling ∈ o.negatives, ¬isShortSpelling spelling

instance (o : OptionSpec) : Decidable o.Separate :=
  inferInstanceAs (Decidable (_ → _ ∧ _))

theorem taken_ofDeclaration (d : Declaration) (mandatory : Bool) :
    (ofDeclaration d mandatory boolean count).taken = d.value := by
  unfold taken ofDeclaration
  cases d.value <;> rfl

theorem allSpellings_ofDeclaration (d : Declaration) (mandatory : Bool) :
    (ofDeclaration d mandatory boolean count).allSpellings = d.spellings := by
  unfold allSpellings ofDeclaration
  cases d.negated <;> simp

theorem written_ofDeclaration {d : Declaration} (hd : d.WellFormed) (mandatory : Bool) :
    (ofDeclaration d mandatory boolean count).written = d.spellings := by
  obtain ⟨longs, short, hwritten⟩ := hd
  rw [written, allSpellings_ofDeclaration, eraseDups_of_nodup hwritten.distinct]

theorem shares_ofDeclaration (d : Declaration) (mandatory : Bool) :
    d.bare.Shares (ofDeclaration d mandatory boolean count).shared :=
  ⟨(taken_ofDeclaration d mandatory).symm, rfl, rfl, rfl⟩

theorem rebuilds_one {d : Declaration} (hd : d.WellFormed) (mandatory : Bool)
    (hrecurs : d.negated → d.recurs = false) :
    (ofDeclaration d mandatory boolean count).shared.Admits
        (ofDeclaration d mandatory boolean count).written ∧
      Rebuilds boolean count (ofDeclaration d mandatory boolean count)
        (ofDeclaration d mandatory boolean count).bare := by
  have hregrouped : (ofDeclaration d mandatory boolean count).regrouped = [d.bare] := by
    rw [regrouped, written_ofDeclaration hd, hd.declares (shares_ofDeclaration d mandatory)]
  refine ⟨?_, ?_, ?_⟩
  · rw [written_ofDeclaration hd]
    exact hd.admits (taken_ofDeclaration d mandatory).symm
  · rw [hregrouped]
    simp [Declaration.bare]
  · rw [hregrouped]
    have hdeclare : declare boolean count [] (mandatory, d.bare) =
        .ok [(ofDeclaration d mandatory boolean count).bare] :=
      declare_ok_iff.2 ⟨hrecurs, rfl⟩
    simpa using hdeclare

/-! ## An option of two declarations -/

section Two

variable {d d' : Declaration} {mandatory mandatory' : Bool} {shared : Shared}

/-- The spellings of both sides declare both sides again, where the short one is affirmative. -/
theorem declares_sides {first text : String} {texts : List String} {short : Option String}
    (hd : d.Written (first :: texts) short) (hside : d.negated = false)
    (hd' : d'.Written [text] none) (hside' : d'.negated = true) (hshares : d.bare.Shares shared)
    (hshares' : d'.bare.Shares shared) :
    shared.declares (d.spellings ++ d'.spellings) = [d.bare, d'.bare] := by
  have hsides : ∀ spelling ∈ first :: texts, (optionKey spelling).2 = false := by
    intro spelling hmem
    rw [(hd.longs_valid spelling hmem).2, hside]
  rw [List.forall_mem_cons] at hsides
  have hnegated : (optionKey text).2 = true := by
    rw [(hd'.longs_valid text (by simp)).2, hside']
  have hlongs : (d.spellings ++ d'.spellings).filter startsLong = first :: texts ++ [text] := by
    rw [List.filter_append, hd.filter_long, hd'.filter_long]
  have hshort : ((d.spellings ++ d'.spellings).filter (!startsLong ·)).head? = short := by
    rw [List.filter_append, hd.filter_short, hd'.filter_short]
    cases short <;> rfl
  rw [Shared.declares_of_cons hlongs hshort
      (Shared.foldl_addLong_sides hsides.1 hsides.2 hnegated), hd.bare_affirmative hside hshares,
    hd'.bare_negative hside' hshares']
  rfl

theorem written_of_separate (hd : d.WellFormed) (hd' : d'.WellFormed) (hside : d.negated = false)
    (hside' : d'.negated = true)
    (h : (join (ofDeclaration d mandatory boolean count)
      (ofDeclaration d' mandatory' boolean count)).Separate) :
    ∃ first texts short text, d.Written (first :: texts) short ∧ d'.Written [text] none := by
  obtain ⟨longs, short, hwritten⟩ := hd
  obtain ⟨longs', short', hwritten'⟩ := hd'
  obtain ⟨⟨spelling, hmem, hlong⟩, hnone⟩ := h rfl
  simp only [join, ofDeclaration, hside, hside', if_true, Bool.false_eq_true, if_false,
    List.append_nil] at hmem hnone
  rw [hwritten.spellings] at hmem
  rw [hwritten'.spellings] at hnone
  have hlongs : longs ≠ [] := by
    rintro rfl
    have hshort := hwritten.short_valid spelling (by simpa using hmem)
    have hstarts := startsLong_of_isLongSpelling hlong
    simp [startsLong_of_isShortSpelling hshort] at hstarts
  obtain ⟨first, texts, rfl⟩ := List.exists_cons_of_ne_nil hlongs
  obtain ⟨text, rfl⟩ := List.length_eq_one_iff.1 (hwritten'.negated hside').1
  have hshort' : short' = none := by
    rw [Option.eq_none_iff_forall_not_mem]
    intro spelling hspelling
    refine hnone spelling ?_ (hwritten'.short_valid spelling hspelling)
    simp [Option.mem_def.1 hspelling]
  subst hshort'
  exact ⟨first, texts, short, text, hwritten, hwritten'⟩

theorem nodup_sides (h : d.OtherSide d') {first text : String} {texts : List String}
    {short : Option String} (hd : d.Written (first :: texts) short) (hd' : d'.Written [text] none) :
    (d.spellings ++ d'.spellings).Nodup := by
  refine List.nodup_append.2 ⟨hd.distinct, hd'.distinct, ?_⟩
  rintro spelling hmem _ hmem' rfl
  have hshort := (h.apart ⟨_, _, hd⟩ ⟨_, _, hd'⟩ spelling hmem hmem').1
  obtain rfl : spelling = text := by simpa [hd'.spellings] using hmem'
  have hstarts := startsLong_of_isLongSpelling (hd'.longs_valid spelling (by simp)).1
  simp [startsLong_of_isShortSpelling hshort] at hstarts

theorem declare_sides (h : d.OtherSide d') (hside : d.negated = false) (mandatory : Bool) :
    [(mandatory, d), (mandatory, d')].foldlM (declare boolean count) [] =
      .ok [join (ofDeclaration d mandatory boolean count)
        (ofDeclaration d' mandatory boolean count)] := by
  have hside' : d'.negated = true := by simpa [hside] using h.side
  have hfirst : declare boolean count [] (mandatory, d) =
      .ok [ofDeclaration d mandatory boolean count] :=
    declare_ok_iff.2 ⟨fun _ => h.single, rfl⟩
  have hsecond : declare boolean count [ofDeclaration d mandatory boolean count] (mandatory, d') =
      .ok [join (ofDeclaration d mandatory boolean count)
        (ofDeclaration d' mandatory boolean count)] := by
    refine declare_ok_iff.2 ⟨fun _ => h.single', place_ok_iff.2 (Or.inr ?_)⟩
    refine ⟨[], _, [], _, rfl, by simp, h.key, pair_ok_iff.2 (Or.inl ?_), rfl⟩
    refine ⟨?_, ?_, h.single, rfl⟩
    · rw [polarity_ofDeclaration, hside, h.flag]
      rfl
    · rw [polarity_ofDeclaration, hside']
      rfl
  rw [List.foldlM_cons, hfirst]
  show declare boolean count _ _ >>= _ = _
  rw [hsecond]
  rfl

/-- **A switch with two sides comes back** where it is separate. -/
theorem rebuilds_two (hd : d.WellFormed) (hd' : d'.WellFormed) (h : d.OtherSide d')
    (hside : d.negated = false) (hmetavar : d'.metavar = d.metavar) {o : OptionSpec}
    (ho : o = join (ofDeclaration d mandatory boolean count)
      (ofDeclaration d' mandatory' boolean count)) (hseparate : o.Separate) :
    o.shared.Admits o.written ∧ Rebuilds boolean count o o.bare := by
  have hside' : d'.negated = true := by simpa [hside] using h.side
  obtain ⟨first, texts, short, text, hwritten, hwritten'⟩ :=
    written_of_separate hd hd' hside hside' (ho ▸ hseparate)
  have hflag := TakenValue.eq_flag h.flag
  have hshared : o.shared = ⟨.flag, d.metavar, false, none⟩ := by
    simp [ho, shared, taken, join, ofDeclaration, hflag, h.single]
  have hall : o.allSpellings = d.spellings ++ d'.spellings := by
    simp [ho, allSpellings, join, ofDeclaration, hside, hside']
  have hnodup := nodup_sides h hwritten hwritten'
  have hregrouped : o.regrouped = [d.bare, d'.bare] := by
    rw [regrouped, written, hall, eraseDups_of_nodup hnodup]
    refine declares_sides hwritten hside hwritten' hside' ?_ ?_ <;> rw [hshared]
    · exact ⟨hflag, rfl, h.single, rfl⟩
    · exact ⟨TakenValue.eq_flag h.flag', hmetavar, h.single', rfl⟩
  have hbare : d.bare.OtherSide d'.bare := ⟨h.key, h.side, h.flag, h.flag', h.single, h.single'⟩
  refine ⟨?_, ?_, ?_⟩
  · rw [written, hall, eraseDups_of_nodup hnodup, hshared]
    refine ⟨hnodup, ?_, fun _ _ _ _ => rfl⟩
    rw [List.filter_append, hwritten.filter_short, hwritten'.filter_short]
    cases short <;> simp
  · rw [hregrouped, List.forall_mem_cons, List.forall_mem_singleton, ho]
    exact ⟨rfl, h.key.symm⟩
  · have hjoin : join (ofDeclaration d.bare o.mandatory boolean count)
        (ofDeclaration d'.bare o.mandatory boolean count) = o.bare := by
      simp [ho, join, ofDeclaration, OptionSpec.bare, Declaration.bare, hflag, hside, hside']
    rw [hregrouped, ← hjoin]
    exact declare_sides hbare hside _

end Two

end OptionSpec

/-! ## Two sides out of one group -/

namespace Shared

variable {shared : Shared} {texts : List String}

theorem Admits.eq_of_short (h : shared.Admits texts) {short short' : String} (hmem : short ∈ texts)
    (hmem' : short' ∈ texts) (hshort : isShortSpelling short) (hshort' : isShortSpelling short') :
    short = short' := by
  have hfilter {text : String} (htext : text ∈ texts) (hshort : isShortSpelling text) :
      text ∈ texts.filter (!startsLong ·) :=
    List.mem_filter.2 ⟨htext, by simp [startsLong_of_isShortSpelling hshort]⟩
  have hfirst := hfilter hmem hshort
  have hsecond := hfilter hmem' hshort'
  have hone := h.one_short
  generalize texts.filter (!startsLong ·) = shorts at hfirst hsecond hone
  cases shorts with
  | nil => cases hfirst
  | cons first shorts =>
    obtain rfl : shorts = [] := by simpa using hone
    rw [List.mem_singleton.1 hfirst, List.mem_singleton.1 hsecond]

/-- Further long spellings leave the first declaration on its side. -/
theorem foldl_addLong_cons (d : Declaration) (ds : List Declaration) :
    ∃ d' ds', texts.foldl shared.addLong (d :: ds) = d' :: ds' ∧ d'.negated = d.negated := by
  induction texts generalizing d ds with
  | nil => exact ⟨d, ds, rfl, rfl⟩
  | cons text texts ih =>
    rw [List.foldl_cons, addLong]
    by_cases htext : (optionKey text).2 = true
    · rw [if_pos htext, List.cons_append]
      apply ih
    · rw [if_neg htext, joinAffirmative]
      by_cases hd : d.negated = true
      · rw [if_pos hd]
        apply ih
      · rw [if_neg hd]
        apply ih { d with spellings := d.spellings ++ [text] }

/-- The declarations of long spellings have spellings of these, and no short one. -/
theorem foldl_addLong_written (hvalid : ∀ text ∈ texts, IsSpelling text)
    (h : shared.Admits texts) :
    ∀ d ∈ (texts.filter startsLong).foldl shared.addLong [],
      d.Written d.spellings none ∧ ∀ text ∈ d.spellings, text ∈ texts := by
  have hlongs : ∀ text ∈ texts.filter startsLong, isLongSpelling text := by
    intro text htext
    obtain ⟨hmem, hlong⟩ := List.mem_filter.1 htext
    refine (hvalid text hmem).resolve_right fun hshort => ?_
    simp [startsLong_of_isShortSpelling hshort] at hlong
  have hflag : ∀ text ∈ texts.filter startsLong, (optionKey text).2 → shared.value.isFlag := by
    intro text htext
    obtain ⟨hmem, hlong⟩ := List.mem_filter.1 htext
    exact h.negated_flag text hmem hlong
  intro d hd
  have hnodup : ([] ++ texts.filter startsLong).Nodup := h.distinct.filter _
  obtain ⟨-, hwritten, hmem⟩ := written_foldl_addLong hlongs hflag hnodup (by simp) d hd
  exact ⟨hwritten, fun text htext => (List.mem_filter.1 (hmem text htext)).1⟩

/-- What a group with a long spelling declares: the first declaration is on the side of that
spelling, and has the short one. -/
theorem exists_declares (hvalid : ∀ text ∈ texts, IsSpelling text)
    (h : shared.Admits texts) {first : String} {longs : List String}
    (hlongs : texts.filter startsLong = first :: longs) :
    ∃ d ds, shared.declares texts = d.withShort (texts.filter (!startsLong ·)).head? :: ds ∧
      d.negated = (optionKey first).2 ∧
      ∀ e ∈ d :: ds, e.Written e.spellings none ∧ ∀ text ∈ e.spellings, text ∈ texts := by
  have hwritten := foldl_addLong_written hvalid h
  rw [hlongs] at hwritten
  have hfirst : ∃ d ds, (first :: longs).foldl shared.addLong [] = d :: ds ∧
      d.negated = (optionKey first).2 := by
    rw [List.foldl_cons, addLong]
    by_cases hnegated : (optionKey first).2 = true
    · rw [if_pos hnegated, hnegated]
      apply foldl_addLong_cons
    · rw [if_neg hnegated, eq_false_of_ne_true hnegated]
      apply foldl_addLong_cons
  obtain ⟨d, ds, hdeclared, hside⟩ := hfirst
  rw [hdeclared] at hwritten
  exact ⟨d, ds, declares_of_cons hlongs rfl hdeclared, hside, hwritten⟩

theorem mem_of_declares (hvalid : ∀ text ∈ texts, IsSpelling text) (h : shared.Admits texts) :
    ∀ d ∈ shared.declares texts, ∀ text ∈ d.spellings, text ∈ texts := by
  have hlongs := foldl_addLong_written hvalid h
  unfold declares
  cases hfind : texts.find? (!startsLong ·) with
  | none => exact fun d hd => (hlongs d hd).2
  | some short =>
    have hmem := List.mem_of_find?_eq_some hfind
    refine forall_joinShort ?_ (fun d hd => ?_) fun d hd => (hlongs d hd).2
    · simpa [declare] using hmem
    · simpa [or_imp, forall_and, hmem] using (hlongs d hd).2

end Shared

namespace Declaration

theorem spellings_withShort (d : Declaration) (short : Option String) :
    (d.withShort short).spellings = d.spellings ++ short.toList := by
  cases short <;> simp [withShort]

theorem negated_withShort (d : Declaration) (short : Option String) :
    (d.withShort short).negated = d.negated := by
  cases short <;> rfl

theorem key_withShort (d : Declaration) (short : Option String) :
    (d.withShort short).key = d.key := by
  cases short <;> rfl

theorem Written.exists_long {d : Declaration} (h : d.Written d.spellings none) :
    ∃ spelling ∈ d.spellings, isLongSpelling spelling := by
  obtain ⟨spelling, hhead, -⟩ := h.key
  have hmem := List.mem_of_mem_head? hhead
  exact ⟨spelling, hmem, (h.longs_valid spelling hmem).1⟩

end Declaration

namespace OptionSpec

/-- The long spellings that an option is described with are those of its sides. -/
theorem filter_long_written {o : OptionSpec} {d d' : Declaration} {longs longs' : List String}
    {short short' : Option String} (hd : d.Written longs short) (hd' : d'.Written longs' short')
    (hs : o.spellings = d.spellings) (hs' : o.negatives = d'.spellings) :
    o.written.filter startsLong = (longs ++ longs').eraseDups := by
  rw [written, filter_eraseDups, allSpellings, hs, hs', List.filter_append, hd.filter_long,
    hd'.filter_long]

/-- **A described switch that declares both its sides is separate.** -/
theorem separate_of_regrouped {o : OptionSpec} (hvalid : ∀ text ∈ o.written, IsSpelling text)
    (hadmits : o.shared.Admits o.written) {d d' : Declaration} (hd : d ∈ o.regrouped)
    (hd' : d' ∈ o.regrouped) (hside : d.negated = false) (hside' : d'.negated = true)
    (hs : o.spellings = d.spellings) (hs' : o.negatives = d'.spellings) : o.Separate := by
  have hwf := Shared.wellFormed_of_declares hvalid hadmits
  obtain ⟨-, longs, short, hwritten⟩ := hwf d hd
  obtain ⟨-, longs', short', hwritten'⟩ := hwf d' hd'
  obtain ⟨text, rfl⟩ := List.length_eq_one_iff.1 (hwritten'.negated hside').1
  have hlongs := filter_long_written hwritten hwritten' hs hs'
  obtain ⟨first, more, hmore⟩ : ∃ first more, longs ++ [text] = first :: more :=
    List.exists_cons_of_ne_nil (by simp)
  rw [hmore, List.eraseDups_cons] at hlongs
  obtain ⟨d₀, ds, hdeclares, hfirst, hall⟩ := Shared.exists_declares hvalid hadmits hlongs
  rw [List.forall_mem_cons] at hall
  rw [regrouped, hdeclares, List.mem_cons] at hd hd'
  have hlong : ∃ spelling ∈ d.spellings, isLongSpelling spelling := by
    rcases hd with rfl | hd
    · obtain ⟨spelling, hmem, hlong⟩ := hall.1.1.exists_long
      exact ⟨spelling, by simp [Declaration.spellings_withShort, hmem], hlong⟩
    · exact (hall.2 d hd).1.exists_long
  -- so the first long spelling of the group is affirmative
  have haffirmative : d₀.negated = false := by
    obtain ⟨spelling, hmem, hvalid⟩ := hlong
    have hne : longs ≠ [] := by
      rintro rfl
      have hstarts : spelling ∈ d.spellings.filter startsLong :=
        List.mem_filter.2 ⟨hmem, startsLong_of_isLongSpelling hvalid⟩
      simp [hwritten.filter_long] at hstarts
    obtain ⟨long, longs, rfl⟩ := List.exists_cons_of_ne_nil hne
    obtain rfl : long = first := by simpa using congrArg List.head? hmore
    rw [hfirst, (hwritten.longs_valid long (by simp)).2, hside]
  refine fun _ => ⟨hs ▸ hlong, fun spelling hmem hshort => ?_⟩
  rw [hs'] at hmem
  rcases hd' with rfl | hd'
  · simp [Declaration.negated_withShort, haffirmative] at hside'
  · have hstarts := startsLong_of_isLongSpelling ((hall.2 d' hd').1.longs_valid spelling hmem).1
    simp [startsLong_of_isShortSpelling hshort] at hstarts

end OptionSpec

end Synopsis
