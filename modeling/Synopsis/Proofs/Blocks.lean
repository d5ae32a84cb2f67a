import Synopsis.Proofs.Arguments
import Synopsis.Proofs.Compiled
import Synopsis.Proofs.Sequences

/-!
# Exchanging blocks of arguments

**Theorem (`Usage.invoke_exchange`).** Where no tail is captured, two neighbouring blocks of
arguments can be exchanged if they name different options and are not both positionals: the command
line is accepted or refused as before, and yields the same environment.

A block is read as one piece, whatever follows it (`Block.piece`). Exchanging two pieces that are
not both positionals gives the reading of the exchanged command line (`ReadsPieces.exchange`), as
the numbers of the positionals stay. What is found for one option, or for positionals, comes from one
of the two pieces only, so its order stays, and an invocation depends on nothing else.
-/

namespace Synopsis

/-- The switch needs a value, and none is attached. -/
def SwitchUse.Opens (use : SwitchUse) : Prop := use.attached = none ∧ use.switch.arity = .required

/-- The arguments are one positional. -/
def IsPositional (block : List String) : Prop :=
  ∃ argument, block = [argument] ∧ Token.classify argument = [⟨.positionalValue, argument⟩]

theorem SwitchUse.Opens.value?_ne {use : SwitchUse} (h : use.Opens) (next : Option Token) :
    use.value? next ≠ some none := by
  simp [SwitchUse.value?, h.1, h.2]

namespace SwitchTable

/-- **A complete block** of arguments. -/
inductive Block (table : SwitchTable) : List String → Prop
  | positional {argument : String}
      (hargument : Token.classify argument = [⟨.positionalValue, argument⟩]) :
      Block table [argument]
  /-- An option with its value attached by `=`. -/
  | attached {argument : String} {option value : Token}
      (hargument : Token.classify argument = [option, value]) : Block table [argument]
  /-- A switch, or a stack of them, that needs no value from the next argument. -/
  | switches {argument : String} (hargument : Token.classify argument = [⟨.name, argument⟩])
      (hclosed : ∀ flags last, table.ReadsUses ⟨.name, argument⟩ (flags ++ [last]) → ¬last.Opens) :
      Block table [argument]
  /-- A switch, or a stack of them, and the value that it needs. -/
  | withValue {argument value : String} {flags : List SwitchUse} {last : SwitchUse}
      (hargument : Token.classify argument = [⟨.name, argument⟩])
      (huses : table.ReadsUses ⟨.name, argument⟩ (flags ++ [last])) (hopens : last.Opens)
      (hvalue : Token.classify value = [⟨.positionalValue, value⟩]) :
      Block table [argument, value]

/-- The block names the option with a key. -/
def Binds (table : SwitchTable) (block : List String) (key : String) : Prop :=
  (table.scan none (Token.classifyAll block)).Names key

variable {table : SwitchTable} {index : Nat} {tokens : List Token} {pieces : List Piece}
  {block arguments : List String}

/-! ## A block is a piece -/

theorem opens_of_value? {use : SwitchUse} {next : Option Token} {value : String}
    (h : use.value? next = some (some ⟨.positionalValue, value⟩)) : use.Opens := by
  obtain ⟨rfl, hattached, harity, -⟩ := taken_of_value? h
  refine ⟨hattached, ?_⟩
  cases hkind : use.switch.arity with
  | required => rfl
  | none => exact absurd hkind harity
  | optional => simp [SwitchUse.value?, hattached, hkind, Token.isSplit] at h

theorem isOption_of_classify {argument : String}
    (h : Token.classify argument = [⟨.name, argument⟩]) :
    (⟨.name, argument⟩ : Token).isOption := by
  rcases Token.classify_cases argument with heq | ⟨-, hoption⟩ | ⟨name, value, -, heq⟩
  · simp [heq] at h
  · exact hoption
  · simp [heq] at h

theorem ReadsPieces.tail_notMem (h : table.ReadsPieces none index tokens pieces)
    (ts : List Token) : .tail ts ∉ pieces.flatMap Piece.occurrences := by
  intro hmem
  obtain ⟨_, _, -, -, hstart, -⟩ := h.tail_last hmem
  simp at hstart

theorem ReadsPieces.uses_of_option {token : Token} {flags : List SwitchUse} {last : SwitchUse}
    {value : Option Token}
    (h : table.ReadsPieces none index tokens (.option token flags last value :: pieces)) :
    table.ReadsUses token (flags ++ [last]) ∧ ∃ next, last.value? next = some value := by
  cases h with
  | option huses hvalue => exact ⟨huses, _, hvalue⟩
  | optionWithValue huses hvalue => exact ⟨huses, _, hvalue⟩

theorem ReadsPieces.not_isOption {token : Token} {index' : Nat}
    (h : table.ReadsPieces none index tokens (.positional index' token :: pieces)) :
    token.isOption = false := by
  cases h with
  | positional htoken => exact htoken

/-- **A block is one piece**, whatever follows it. -/
theorem Block.piece (hblock : table.Block block)
    (h : table.ReadsPieces none index (Token.classifyAll (block ++ arguments)) pieces) :
    ∃ piece rest, pieces = piece :: rest ∧ piece.tokens = Token.classifyAll block := by
  cases hblock with
  | @positional argument hargument =>
    rw [List.singleton_append, Token.classifyAll_cons, hargument] at h
    rcases h.of_plain with rfl | ⟨rest, rfl, -⟩
    · have hnone := h.tail_notMem (⟨.positionalValue, argument⟩ :: Token.classifyAll arguments)
      simp [Piece.occurrences] at hnone
    · exact ⟨_, rest, rfl, by simp [hargument, Piece.tokens]⟩
  | @attached argument option value hargument =>
    rcases Token.classify_cases argument with heq | ⟨heq, -⟩ | ⟨name, text, hname, heq⟩
    · simp [heq] at hargument
    · simp [heq] at hargument
    · rw [List.singleton_append, Token.classifyAll_cons, heq] at h
      obtain ⟨flags, last, rest, rfl, -⟩ := h.of_attached hname
      exact ⟨_, rest, rfl, by simp [heq, Piece.tokens]⟩
  | @switches argument hargument hclosed =>
    rw [List.singleton_append, Token.classifyAll_cons, hargument] at h
    obtain ⟨flags, last, rest, ⟨rfl, -⟩ | ⟨value, arguments, -, -, rfl, -⟩⟩ :=
      h.of_option (isOption_of_classify hargument)
    · exact ⟨_, rest, rfl, by simp [hargument, Piece.tokens]⟩
    · obtain ⟨huses, next, hvalue⟩ := h.uses_of_option
      exact absurd (opens_of_value? hvalue) (hclosed _ _ huses)
  | @withValue argument value flags last hargument huses hopens hvalue =>
    rw [List.cons_append, Token.classifyAll_cons, hargument] at h
    obtain ⟨flags', last', rest, ⟨rfl, -⟩ | ⟨value', arguments', heq, -, rfl, -⟩⟩ :=
      h.of_option (isOption_of_classify hargument)
    · obtain ⟨huses', next, hnone⟩ := h.uses_of_option
      obtain ⟨rfl, rfl⟩ := huses.last_unique huses'
      exact absurd hnone (hopens.value?_ne next)
    · obtain ⟨rfl, rfl⟩ := List.cons.inj heq
      exact ⟨_, rest, rfl, by simp [hargument, hvalue, Piece.tokens]⟩

/-- What follows a block is read on its own. -/
theorem Block.reads (hblock : table.Block block)
    (h : table.ReadsPieces none index (Token.classifyAll (block ++ arguments)) pieces) :
    ∃ piece rest, pieces = piece :: rest ∧
      table.ReadsPieces none index (Token.classifyAll block) [piece] ∧
      table.ReadsPieces none (index + (positionalsOf [piece]).length)
        (Token.classifyAll arguments) rest := by
  obtain ⟨piece, rest, rfl, hpiece⟩ := hblock.piece h
  have htokens := h.tokens_eq
  rw [List.flatMap_cons, hpiece, Token.classifyAll_append] at htokens
  obtain ⟨hblock, hrest⟩ := (show table.ReadsPieces none index _ ([piece] ++ rest) from h).of_append
  rw [List.append_cancel_left htokens] at hrest
  rw [List.flatMap_singleton, hpiece] at hblock
  exact ⟨piece, rest, rfl, hblock, hrest⟩

/-! ## Exchanging pieces -/

/-- A switch that takes nothing at the end takes nothing from a token that is not split. -/
theorem value?_of_not_isSplit {use : SwitchUse} {next : Option Token}
    (h : use.value? none = some none) (hnext : ¬next.any Token.isSplit) :
    use.value? next = some none := by
  unfold SwitchUse.value? at h ⊢
  cases hattached : use.attached with
  | some text => simp
  | none =>
    cases harity : use.switch.arity with
    | none => simp [hnext]
    | required => simp [hattached, harity] at h
    | optional =>
      have hfilter : next.filter Token.isSplit = none := by
        cases next with
        | none => rfl
        | some token => simpa using hnext
      simp [hfilter]

namespace ReadsPieces

theorem at_index (h : table.ReadsPieces none index tokens pieces) (hnone : positionalsOf pieces = [])
    (index' : Nat) : table.ReadsPieces none index' tokens pieces := by
  induction h with
  | done => exact .done
  | option huses hvalue _ ih => exact .option huses hvalue (ih (by simpa using hnone))
  | optionWithValue huses hvalue _ ih =>
    exact .optionWithValue huses hvalue (ih (by simpa using hnone))
  | positional => simp at hnone
  | tail _ hindex => simp at hindex

theorem append {first second : List Token} {before after : List Piece}
    (hfirst : table.ReadsPieces none index first before)
    (hsecond : table.ReadsPieces none (index + (positionalsOf before).length) second after)
    (hsplit : ¬second.head?.any Token.isSplit) :
    table.ReadsPieces none index (first ++ second) (before ++ after) := by
  induction hfirst with
  | done => simpa using hsecond
  | @option index token rest flags last pieces huses hvalue hrest ih =>
    have hnext : last.value? (rest ++ second).head? = some none := by
      cases rest with
      | nil => exact value?_of_not_isSplit hvalue hsplit
      | cons => exact hvalue
    exact .option huses hnext (ih (by simpa using hsecond))
  | optionWithValue huses hvalue _ ih =>
    exact .optionWithValue huses hvalue (ih (by simpa using hsecond))
  | positional htoken hindex _ ih =>
    refine .positional htoken hindex (ih ?_)
    rwa [positionalsOf_positional, List.length_cons, Nat.add_comm _ 1, ← Nat.add_assoc] at hsecond
  | tail _ hindex => simp at hindex

theorem append_arguments {first second : List String} {before after : List Piece}
    (hfirst : table.ReadsPieces none index (Token.classifyAll first) before)
    (hsecond : table.ReadsPieces none (index + (positionalsOf before).length)
      (Token.classifyAll second) after) :
    table.ReadsPieces none index (Token.classifyAll (first ++ second)) (before ++ after) := by
  rw [Token.classifyAll_append]
  exact hfirst.append hsecond (Token.not_isSplit_head? second)

/-- **Two pieces can be exchanged** if they are not both positionals. -/
theorem exchange {b₁ b₂ post : List String} {p₁ p₂ : Piece} {after : List Piece}
    (h₁ : table.ReadsPieces none index (Token.classifyAll b₁) [p₁])
    (h₂ : table.ReadsPieces none (index + (positionalsOf [p₁]).length) (Token.classifyAll b₂) [p₂])
    (hafter : table.ReadsPieces none
      (index + (positionalsOf [p₁]).length + (positionalsOf [p₂]).length)
      (Token.classifyAll post) after)
    (hnone : positionalsOf [p₁] = [] ∨ positionalsOf [p₂] = []) :
    table.ReadsPieces none index (Token.classifyAll (b₂ ++ (b₁ ++ post))) (p₂ :: p₁ :: after) := by
  rcases hnone with hnone | hnone
  · rw [hnone] at h₂ hafter
    have h₁' := h₁.at_index hnone (index + (positionalsOf [p₂]).length)
    exact h₂.append_arguments (h₁'.append_arguments (by rwa [hnone]))
  · rw [hnone] at hafter
    have hrest := h₁.append_arguments hafter
    exact (h₂.at_index hnone index).append_arguments (by rwa [hnone])

end ReadsPieces

theorem pieces_of_blocks {blocks : List (List String)} (hblocks : ∀ b ∈ blocks, table.Block b)
    (h : table.ReadsPieces none index (Token.classifyAll (blocks.flatten ++ arguments)) pieces) :
    ∃ before after, pieces = before ++ after ∧
      table.ReadsPieces none index (Token.classifyAll blocks.flatten) before ∧
      table.ReadsPieces none (index + (positionalsOf before).length)
        (Token.classifyAll arguments) after := by
  induction blocks generalizing index pieces with
  | nil => exact ⟨[], pieces, rfl, .done, h⟩
  | cons block blocks ih =>
    rw [List.flatten_cons, List.append_assoc] at h
    obtain ⟨piece, rest, rfl, hpiece, hrest⟩ := (hblocks block (by simp)).reads h
    obtain ⟨before, after, rfl, hbefore, hafter⟩ := ih (fun b hb => hblocks b (by simp [hb])) hrest
    refine ⟨piece :: before, after, rfl, ?_, ?_⟩
    · exact hpiece.append_arguments hbefore
    · rw [← List.singleton_append, positionalsOf_append, List.length_append, ← Nat.add_assoc]
      exact hafter

/-! ## What an exchange keeps -/

theorem filterMap_exchange {α : Type} {f : Occurrence → Option α} {before after : List Piece}
    {p₁ p₂ : Piece} (h : p₁.occurrences.filterMap f = [] ∨ p₂.occurrences.filterMap f = []) :
    ((before ++ p₁ :: p₂ :: after).flatMap Piece.occurrences).filterMap f =
      ((before ++ p₂ :: p₁ :: after).flatMap Piece.occurrences).filterMap f := by
  rcases h with h | h <;> simp [h]

theorem isPositional_of_reads {piece : Piece}
    (h : table.ReadsPieces none index (Token.classifyAll block) [piece])
    (hsome : positionalsOf [piece] ≠ []) : IsPositional block := by
  have htokens := h.tokens_eq
  cases piece with
  | option => simp at hsome
  | tail => simp at hsome
  | positional index token =>
    obtain ⟨argument, rest, rfl, hargument, -, hrest⟩ :=
      Token.plain_of_not_isOption htokens.symm h.not_isOption
    exact ⟨argument, by rw [Token.classifyAll_eq_nil hrest.symm], hargument⟩

theorem binds_of_reads {piece : Piece}
    (h : table.ReadsPieces none index (Token.classifyAll block) [piece]) {key : String}
    (hsome : payloadsOf key piece.occurrences ≠ []) : table.Binds block key := by
  have hnone : positionalsOf [piece] = [] := by
    cases piece with
    | option => simp
    | tail => simp
    | positional => exact absurd rfl hsome
  have hscan : table.scan none (Token.classifyAll block) = ⟨piece.occurrences, none⟩ :=
    scanFrom_iff.2 ⟨[piece], h.at_index hnone 0, by simp⟩
  rw [Binds, Scan.names_iff, hscan]
  exact hsome

/-- **A scan after an exchange** has found the same for each option, and for positionals. -/
theorem scan_exchange {pre : List (List String)} {b₁ b₂ post : List String}
    (hpre : ∀ b ∈ pre, table.Block b) (hb₁ : table.Block b₁) (hb₂ : table.Block b₂)
    (hkeys : ∀ key, ¬(table.Binds b₁ key ∧ table.Binds b₂ key))
    (hpositional : ¬(IsPositional b₁ ∧ IsPositional b₂)) {s s' : Scan}
    (hs : s = table.scan none (Token.classifyAll (pre.flatten ++ (b₁ ++ (b₂ ++ post)))))
    (hs' : s' = table.scan none (Token.classifyAll (pre.flatten ++ (b₂ ++ (b₁ ++ post)))))
    (h : s.error = none) :
    s'.error = none ∧ s.positionals = s'.positionals ∧ ∀ key, s.payloads key = s'.payloads key := by
  subst hs
  obtain ⟨pieces, hpieces, hoccurrences⟩ := exists_pieces h
  obtain ⟨before, rest, rfl, hbefore, hrest⟩ := pieces_of_blocks hpre hpieces
  obtain ⟨p₁, rest, rfl, hp₁, hrest⟩ := hb₁.reads hrest
  obtain ⟨p₂, after, rfl, hp₂, hafter⟩ := hb₂.reads hrest
  have hnone : positionalsOf [p₁] = [] ∨ positionalsOf [p₂] = [] := by
    by_contra hsome
    push Not at hsome
    exact hpositional ⟨isPositional_of_reads hp₁ hsome.1, isPositional_of_reads hp₂ hsome.2⟩
  have hexchanged := hbefore.append_arguments (hp₁.exchange hp₂ hafter hnone)
  have hscan : s' = ⟨(before ++ p₂ :: p₁ :: after).flatMap Piece.occurrences, none⟩ :=
    hs'.trans (scanFrom_iff.2 ⟨_, hexchanged, rfl⟩)
  subst hscan
  have hdisjoint (key : String) :
      payloadsOf key p₁.occurrences = [] ∨ payloadsOf key p₂.occurrences = [] := by
    by_contra hsome
    push Not at hsome
    exact hkeys key ⟨binds_of_reads hp₁ hsome.1, binds_of_reads hp₂ hsome.2⟩
  rw [Scan.positionals, hoccurrences]
  refine ⟨rfl, filterMap_exchange (by simpa [positionalsOf] using hnone), fun key => ?_⟩
  rw [Scan.payloads, hoccurrences]
  exact filterMap_exchange (hdisjoint key)

/-- A token whose switches are known and need no value is a block. -/
theorem Block.of_uses {argument : String} {flags : List SwitchUse} {last : SwitchUse}
    (hargument : Token.classify argument = [⟨.name, argument⟩])
    (huses : table.ReadsUses ⟨.name, argument⟩ (flags ++ [last])) (hlast : ¬last.Opens) :
    table.Block [argument] := by
  refine .switches hargument fun flags' last' huses' => ?_
  obtain ⟨-, rfl⟩ := huses.last_unique huses'
  exact hlast

end SwitchTable

namespace Usage

variable {u : Usage}

/-- Where no tail is captured, an invocation depends on two kinds of sequences. -/
theorem invoke_iff_of_sequences (hu : u.layout.tailStart = none) {tokens tokens' : List Token}
    (h : (u.scan tokens).error = none) (h' : (u.scan tokens').error = none)
    (hpositionals : (u.scan tokens).positionals = (u.scan tokens').positionals)
    (hpayloads : ∀ key, (u.scan tokens).payloads key = (u.scan tokens').payloads key)
    (evaluator : Evaluator) (env : Environment) :
    (u.invoke tokens evaluator).result = .ok env ↔
      (u.invoke tokens' evaluator).result = .ok env := by
  have hnoTail (ts : List Token) (hts : (u.scan ts).error = none) :
      (u.scan ts).occurrences.filterMap Occurrence.tail? = [] := by
    obtain ⟨pieces, hpieces, hoccurrences⟩ := SwitchTable.exists_pieces hts
    rw [hu] at hpieces
    rw [show (u.scan ts).occurrences = _ from hoccurrences, List.filterMap_eq_nil_iff]
    intro occurrence hmem
    cases occurrence with
    | tail tail => exact absurd hmem (hpieces.tail_notMem tail)
    | named => rfl
    | positional => rfl
  have htail := (hnoTail tokens h).trans (hnoTail tokens' h').symm
  constructor
  · exact invoke_congr h h' hpositionals hpayloads htail
  · exact invoke_congr h' h hpositionals.symm (fun key => (hpayloads key).symm) htail.symm

/-- An invocation that succeeds does so after an exchange, with the same environment. -/
theorem invoke_of_exchange (hu : u.layout.tailStart = none) {pre : List (List String)}
    {b₁ b₂ post : List String} (hpre : ∀ b ∈ pre, u.switches.Block b) (hb₁ : u.switches.Block b₁)
    (hb₂ : u.switches.Block b₂) (hkeys : ∀ key, ¬(u.switches.Binds b₁ key ∧ u.switches.Binds b₂ key))
    (hpositional : ¬(IsPositional b₁ ∧ IsPositional b₂)) {evaluator : Evaluator} {env : Environment}
    (henv : (u.invoke (Token.classifyAll (pre.flatten ++ (b₁ ++ (b₂ ++ post)))) evaluator).result =
      .ok env) :
    (u.invoke (Token.classifyAll (pre.flatten ++ (b₂ ++ (b₁ ++ post)))) evaluator).result =
      .ok env := by
  obtain ⟨herror, -⟩ := fed_of_invoke henv
  obtain ⟨herror', hpositionals, hpayloads⟩ := SwitchTable.scan_exchange hpre hb₁ hb₂ hkeys
    hpositional (congrArg (fun start => u.switches.scan start _) hu)
    (congrArg (fun start => u.switches.scan start _) hu) herror
  exact (invoke_iff_of_sequences hu herror herror' hpositionals hpayloads evaluator env).1 henv

/-- **The order of independent arguments does not matter.** Where no tail is captured, an invocation
depends on the positionals in order and on the occurrences of each option in order. In a command
line that is made of blocks, two neighbours can therefore be exchanged that name different options
and are not both positionals: it succeeds as before, with the same environment. -/
theorem invoke_exchange (hu : u.layout.tailStart = none) (evaluator : Evaluator) :
    (∀ (pre : List (List String)) (b₁ b₂ : List String) (post : List (List String)),
      (∀ b ∈ pre ++ b₁ :: b₂ :: post, u.switches.Block b) →
      (∀ key, ¬(u.switches.Binds b₁ key ∧ u.switches.Binds b₂ key)) →
      ¬(IsPositional b₁ ∧ IsPositional b₂) →
      ∀ env,
        (u.invoke (Token.classifyAll (pre ++ b₁ :: b₂ :: post).flatten) evaluator).result = .ok env ↔
          (u.invoke (Token.classifyAll (pre ++ b₂ :: b₁ :: post).flatten) evaluator).result =
            .ok env) ∧
    ∀ tokens tokens', (u.scan tokens).error = none → (u.scan tokens').error = none →
      (u.scan tokens).positionals = (u.scan tokens').positionals →
      (∀ key, (u.scan tokens).payloads key = (u.scan tokens').payloads key) →
      ∀ env, (u.invoke tokens evaluator).result = .ok env ↔
        (u.invoke tokens' evaluator).result = .ok env := by
  constructor
  · intro pre b₁ b₂ post hblocks hkeys hpositional env
    have hpre : ∀ b ∈ pre, u.switches.Block b := fun b hb => hblocks b (by simp [hb])
    have hb₁ : u.switches.Block b₁ := hblocks b₁ (by simp)
    have hb₂ : u.switches.Block b₂ := hblocks b₂ (by simp)
    simp only [List.flatten_append, List.flatten_cons]
    constructor
    · exact invoke_of_exchange hu hpre hb₁ hb₂ hkeys hpositional
    · exact invoke_of_exchange hu hpre hb₂ hb₁ (fun key h => hkeys key h.symm)
        fun h => hpositional h.symm
  · intro tokens tokens' h h' hpositionals hpayloads env
    exact invoke_iff_of_sequences hu h h' hpositionals hpayloads evaluator env

/-- An option with its value exchanged with a switch, between two positionals. -/
theorem exchange_valueAndSwitch :
    ∃ u r' env, compile "[--out=STR] [-v]... STR STR" Registry.standard = .ok u r' ∧
      (u.invoke (Token.classifyAll ["a", "--out", "x", "-v", "b"]) .unsupported).result = .ok env ∧
      (u.invoke (Token.classifyAll ["a", "-v", "--out", "x", "b"]) .unsupported).result =
        .ok env := by
  obtain ⟨u, r', hcompile, hcheck⟩ := exists_of_succeedsWith
    (compile "[--out=STR] [-v]... STR STR" Registry.standard)
    (fun u _ => u.layout.tailStart = none &&
      u.switches.get? "--out" = some ⟨"out", .required, none⟩ &&
      u.switches.get? "-v" = some ⟨"v", .none, some true⟩ &&
      (u.switches.scan none (Token.classifyAll ["--out", "x"])).occurrences =
        [.named "out" "--out" (.text "x")] &&
      (u.switches.scan none (Token.classifyAll ["-v"])).occurrences =
        [.named "v" "-v" (.implied true)] &&
      (u.invoke (Token.classifyAll ["a", "--out", "x", "-v", "b"]) .unsupported).result.isOk)
    (by decide +kernel)
  simp only [Bool.and_eq_true, decide_eq_true_eq, failing_isOk_iff] at hcheck
  obtain ⟨⟨⟨⟨⟨htail, hout⟩, hv⟩, houtScan⟩, hvScan⟩, env, henv⟩ := hcheck
  have hplain (argument : String) (h : argument ∈ ["a", "b", "x"]) :
      Token.classify argument = [⟨.positionalValue, argument⟩] := by
    fin_cases h <;> decide +kernel
  have hb₁ : u.switches.Block ["--out", "x"] := by
    have huse : u.switches.ReadsLong ['o', 'u', 't'] ⟨"--out", ⟨"out", .required, none⟩, none⟩ :=
      .bare (by decide) hout
    exact @SwitchTable.Block.withValue _ _ _ [] _ (by decide +kernel) (.long rfl rfl huse)
      ⟨rfl, rfl⟩ (hplain "x" (by simp))
  have hb₂ : u.switches.Block ["-v"] := by
    have hstack : u.switches.ReadsStack ['v'] [⟨"-v", ⟨"v", .none, some true⟩, none⟩] :=
      .flag (by decide) hv rfl .done
    exact @SwitchTable.Block.of_uses _ _ [] _ (by decide +kernel)
      (.stack rfl rfl (by decide) hstack) (by simp [SwitchUse.Opens])
  have hkeys : ∀ key, ¬(u.switches.Binds ["--out", "x"] key ∧ u.switches.Binds ["-v"] key) := by
    intro key hbinds
    obtain ⟨⟨_, _, hout⟩, _, _, hv⟩ := hbinds
    rw [houtScan, List.mem_singleton] at hout
    rw [hvScan, List.mem_singleton] at hv
    obtain ⟨rfl, -⟩ := Occurrence.named.inj hout
    simp at hv
  refine ⟨u, r', env, hcompile, henv, ?_⟩
  refine ((invoke_exchange htail .unsupported).1 [["a"]] ["--out", "x"] ["-v"] [["b"]] ?_ hkeys ?_
    env).1 henv
  · intro b hb
    fin_cases hb
    · exact .positional (hplain "a" (by simp))
    · exact hb₁
    · exact hb₂
    · exact .positional (hplain "b" (by simp))
  · intro hpositional
    obtain ⟨argument, heq, -⟩ := hpositional.1
    simp at heq

end Usage

end Synopsis
