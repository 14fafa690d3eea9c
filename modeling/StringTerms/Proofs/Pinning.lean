import StringTerms.Proofs.Extraction
import StringTerms.Proofs.Rollback

/-!
# Pinned characters

The emulated values that the library introduces are extracted characters.  A session is pinned when
its internal assertions say of its extracted characters that each is the one at its position, if
that is a position of its string, and say nothing else.  Operations, variables and assertions of
the user keep a session pinned.
-/

namespace StringTerms

variable {ss tt : Session} {M N : Model} {a b c : Handle}

/-- Every variable of the session has a value of its own kind. -/
def Model.Total (M : Model) (ss : Session) : Prop :=
  ∀ h n k, ss.node? h = some (.var n k) → ∃ v, M.value? h = some (.of k v)

theorem Model.Total.assigns (total : M.Total ss) (h : Handle) :
  M.Assigns ss h
  := fun _ hn => total _ _ _ hn

theorem Model.Total.of_extends (total : M.Total tt) (grows : ss.Extends tt) :
  M.Total ss
  := fun _ _ _ hn => total _ _ _ (grows.node? hn)

namespace Session

/-- Every assertion of the library is true. -/
def InternalTrue (ss : Session) (M : Model) : Prop :=
  ∀ a ∈ ss.assertions, a.origin = .internal → ss.evaluate M a.handle = .ok (some (.bool true))

/-- The value of `c` is the character at position `b` of `a`, if that is a position of `a`. -/
def Pins (ss : Session) (M : Model) (a b c : Handle) : Prop :=
  ∃ s i x, ss.evaluate M a = .ok (some (.string s)) ∧ ss.evaluate M b = .ok (some (.int i))
    ∧ ss.evaluate M c = .ok (some (.char x))
    ∧ (0 ≤ i → i < s.length → ByteString.charAt? s i = some x)

/-- `c` is a variable for a character of the earlier string `a` at the earlier position `b`. -/
structure IsCharacter (ss : Session) (a b c : Handle) : Prop where
  string : ss.kind? a = some .string
  position : ss.kind? b = some .int
  isVariable : ∃ n, ss.node? c = some (.var n .char)
  stringEarlier : a.index < c.index
  positionEarlier : b.index < c.index

/-- The remembered values are characters, and the internal assertions pin them. -/
structure Pinned (ss : Session) : Prop where
  wellKinded : ss.WellKinded
  character : ∀ {op hs c}, ss.emulated? op hs = some c →
    ∃ a b, op = .charAt ∧ hs = [a, b] ∧ ss.IsCharacter a b c
  distinct : ∀ {op hs op' hs' c}, ss.emulated? op hs = some c → ss.emulated? op' hs' = some c →
    op = op' ∧ hs = hs'
  asserted : ∀ a ∈ ss.assertions, a.handle.index < ss.nodes.size
  exact : ∀ {M : Model}, M.Total ss →
    (ss.InternalTrue M ↔ ∀ a b c, ss.emulated? .charAt [a, b] = some c → ss.Pins M a b c)

/-! ### Values in an extension -/

theorem evaluate_eq_some_iff {h : Handle} {l : Literal} :
  ss.evaluate M h = .ok (some l) ↔ ss.reading M h = some l
  := by
  rw [evaluate_eq_direct, reading_eq_some_iff]

theorem evaluate_of_nodes (same : tt.nodes = ss.nodes) (M : Model) (h : Handle) :
  tt.evaluate M h = ss.evaluate M h
  := by
  rw [← evaluateWith_slice, evaluateWith_of_nodes same, evaluateWith_slice]

theorem Extends.evaluate (grows : ss.Extends tt) (M : Model) {h : Handle}
    (inside : h.index < ss.nodes.size) :
  tt.evaluate M h = ss.evaluate M h
  := by
  rw [evaluate_eq_direct, evaluate_eq_direct, grows.direct M inside]

theorem IsCharacter.inside (h : ss.IsCharacter a b c) :
  a.index < ss.nodes.size ∧ b.index < ss.nodes.size ∧ c.index < ss.nodes.size
  := by
  obtain ⟨n, hn⟩ := h.isVariable
  exact ⟨index_lt_of_kind? h.string, index_lt_of_kind? h.position,
    (Array.getElem?_eq_some_iff.mp hn).1⟩

theorem IsCharacter.extend (h : ss.IsCharacter a b c) (grows : ss.Extends tt) :
  tt.IsCharacter a b c
  where
    string := grows.kind? h.string
    position := grows.kind? h.position
    isVariable := h.isVariable.imp fun _ hn => grows.node? hn
    stringEarlier := h.stringEarlier
    positionEarlier := h.positionEarlier

theorem IsCharacter.of_nodes (h : ss.IsCharacter a b c) (same : tt.nodes = ss.nodes) :
  tt.IsCharacter a b c
  := by
  have node : ∀ g, tt.node? g = ss.node? g := fun g => by rw [node?, same, node?]
  obtain ⟨string, position, isVariable, stringEarlier, positionEarlier⟩ := h
  refine ⟨?_, ?_, ?_, stringEarlier, positionEarlier⟩
  · rw [kind?, node, ← kind?, string]
  · rw [kind?, node, ← kind?, position]
  · rw [node]
    apply isVariable

/-- An extension pins the same characters of a session. -/
theorem Extends.pins_iff (grows : ss.Extends tt) (M : Model) (h : ss.IsCharacter a b c) :
  tt.Pins M a b c ↔ ss.Pins M a b c
  := by
  obtain ⟨ha, hb, hc⟩ := h.inside
  simp only [Pins, grows.evaluate M ha, grows.evaluate M hb, grows.evaluate M hc]

theorem pins_of_nodes (same : tt.nodes = ss.nodes) (M : Model) :
  tt.Pins M a b c ↔ ss.Pins M a b c
  := by
  simp only [Pins, evaluate_of_nodes same]

theorem pins_iff {s : ByteString} {i : Int} {x : UInt8} (ha : ss.reading M a = some (.string s))
    (hb : ss.reading M b = some (.int i)) (hc : ss.reading M c = some (.char x)) :
  ss.Pins M a b c ↔ (0 ≤ i → i < s.length → ByteString.charAt? s i = some x)
  := by
  simp only [Pins, evaluate_eq_some_iff]
  constructor
  · rintro ⟨s', i', x', ha', hb', hc', pinned⟩
    rw [ha] at ha'
    rw [hb] at hb'
    rw [hc] at hc'
    cases ha'
    cases hb'
    cases hc'
    apply pinned
  · intro pinned
    use s, i, x

/-- Every value of a session has some host value in a total model, whatever the slices are. -/
theorem WellKinded.exists_readsWith (wk : ss.WellKinded) (cut : Slicing) (total : M.Total ss)
    {k : Kind} {x : Value k} (hx : ss.Holds x) :
  ∃ v, x.ReadsAs (ss.readingWith cut M) v
  := by
  cases x with
  | known u => exact ⟨u, rfl⟩
  | node h => apply wk.readsWith_of_assigned cut hx (total.assigns h)

/-- Every value of a session reads as some host value in a total model. -/
theorem WellKinded.exists_readsAs (wk : ss.WellKinded) (total : M.Total ss) {k : Kind}
    {x : Value k} (hx : ss.Holds x) :
  ∃ v, x.ReadsAs (ss.reading M) v
  := by
  rw [reading_eq_readingWith]
  apply wk.exists_readsWith _ total hx

/-! ### Internal assertions -/

/-- An extension without further internal assertions has the same internal assertions. -/
theorem Extends.internalTrue_iff (grows : ss.Extends tt) (M : Model)
    (inside : ∀ a ∈ ss.assertions, a.handle.index < ss.nodes.size)
    (added : ∀ a ∈ tt.assertions, a ∈ ss.assertions ∨ a.origin = .user) :
  tt.InternalTrue M ↔ ss.InternalTrue M
  := by
  constructor
  · intro holds a mem origin
    rw [← grows.evaluate M (inside a mem)]
    apply holds a (grows.mem_assertions mem) origin
  · intro holds a mem origin
    obtain old | user := added a mem
    · rw [grows.evaluate M (inside a old)]
      apply holds a old origin
    · rw [origin] at user
      cases user

theorem internalTrue_addAssertion (g : Handle) :
  (ss.addAssertion g .internal).InternalTrue M
    ↔ ss.InternalTrue M ∧ ss.evaluate M g = .ok (some (.bool true))
  := by
  have nodes : (ss.addAssertion g .internal).nodes = ss.nodes := rfl
  simp only [InternalTrue, evaluate_of_nodes nodes]
  constructor
  · intro holds
    constructor
    · exact fun a mem => holds a (Array.mem_push_of_mem _ mem)
    · apply holds _ Array.mem_push_self rfl
  · rintro ⟨holds, new⟩ a mem origin
    obtain old | rfl := Array.mem_push.mp mem
    · apply holds a old origin
    · apply new

theorem internalTrue_remember (op : Operator) (hs : List Handle) (h : Handle) :
  (Emulation.remember op hs h ss).InternalTrue M ↔ ss.InternalTrue M
  := by
  have nodes : (Emulation.remember op hs h ss).nodes = ss.nodes := rfl
  simp only [InternalTrue, evaluate_of_nodes nodes]
  rfl

/-- What is required of a model by a condition is that the condition is true. -/
theorem WellKinded.require (wk : ss.WellKinded) {condition : Value .bool}
    (held : ss.Holds condition) (inside : ∀ a ∈ ss.assertions, a.handle.index < ss.nodes.size) :
  (Emulation.require condition ss).2.WellKinded
    ∧ (∀ a ∈ (Emulation.require condition ss).2.assertions,
        a.handle.index < (Emulation.require condition ss).2.nodes.size)
    ∧ ∀ {M : Model} {v}, condition.ReadsAs (ss.reading M) v →
        ((Emulation.require condition ss).2.InternalTrue M ↔ ss.InternalTrue M ∧ v = true)
  := by
  unfold Emulation.require
  split
  case isTrue known =>
    use wk, inside
    intro M v reads
    rw [known] at reads
    cases reads
    simp only [and_true]
    rfl
  case isFalse =>
    obtain ⟨shares, wk, kind, named⟩ := condition.handle_spec wk held
    have old : ∀ a ∈ (condition.handle ss).2.assertions, a ∈ ss.assertions := fun a mem => by
      rwa [shares.assertions] at mem
    refine ⟨wk.congr rfl rfl, ?_, ?_⟩
    · intro a mem
      obtain mem | rfl := Array.mem_push.mp mem
      · apply Nat.lt_of_lt_of_le (inside a (old a mem)) shares.sizes.1
      · apply index_lt_of_kind? kind
    · intro M v reads
      have read := named (wk.interprets_reading M)
        ((shares.toExtends.readsAs_iff M held).mpr reads)
      have true_iff : (condition.handle ss).2.evaluate M (condition.handle ss).1
          = .ok (some (.bool true)) ↔ v = true := by
        rw [evaluate_eq_some_iff, read]
        cases v <;> simp [Literal.of]
      rw [← shares.toExtends.internalTrue_iff M inside fun a mem => Or.inl (old a mem), ← true_iff]
      apply internalTrue_addAssertion

namespace Pinned

/-- An extension that remembers nothing and asserts nothing internally. -/
theorem extend (h : ss.Pinned) (wk : tt.WellKinded) (grows : ss.Extends tt)
    (emulations : tt.emulations = ss.emulations)
    (asserted : ∀ a ∈ tt.assertions, a ∈ ss.assertions
      ∨ a.origin = .user ∧ a.handle.index < tt.nodes.size) :
  tt.Pinned
  := by
  have known : ∀ op hs, tt.emulated? op hs = ss.emulated? op hs := fun op hs => by
    rw [emulated?, emulations, emulated?]
  constructor
  · apply wk
  · intro op hs c found
    rw [known] at found
    obtain ⟨a, b, hop, hhs, character⟩ := h.character found
    exact ⟨a, b, hop, hhs, character.extend grows⟩
  · intro op hs op' hs' c
    rw [known, known]
    apply h.distinct
  · intro a mem
    obtain old | ⟨-, inside⟩ := asserted a mem
    · apply Nat.lt_of_lt_of_le (h.asserted a old) grows.sizes.1
    · apply inside
  · intro M total
    have added : ∀ a ∈ tt.assertions, a ∈ ss.assertions ∨ a.origin = .user := fun a mem =>
      (asserted a mem).imp_right And.left
    rw [grows.internalTrue_iff M h.asserted added, h.exact (total.of_extends grows)]
    constructor
    · intro pinned a b c found
      rw [known] at found
      obtain ⟨_, _, -, ⟨⟩, character⟩ := h.character found
      apply (grows.pins_iff M character).mpr (pinned a b c found)
    · intro pinned a b c found
      obtain ⟨_, _, -, ⟨⟩, character⟩ := h.character found
      rw [← known] at found
      apply (grows.pins_iff M character).mp (pinned a b c found)

theorem of_contents (h : ss.Pinned) (same : tt.contents = ss.contents) :
  tt.Pinned
  := by
  obtain ⟨-, nodes, table, -, asserted, emulations⟩ := contents_eq_iff.mp same
  apply h.extend (h.wellKinded.congr nodes table) (Extends.of_contents same) emulations
  intro a mem
  left
  rwa [asserted] at mem

/-- Sharing nodes keeps a session pinned. -/
theorem share (h : ss.Pinned) (wk : tt.WellKinded) (shares : ss.Shares tt) :
  tt.Pinned
  := by
  apply h.extend wk shares.toExtends shares.emulations
  intro a mem
  left
  rwa [shares.assertions] at mem

theorem addVariable (h : ss.Pinned) (name : String) (k : Kind) (internal : Bool) :
  (Session.addVariable name k internal ss).2.Pinned
  := by
  apply h.extend (h.wellKinded.addVariable name k internal)
    (extends_addVariable name k internal ss) rfl
  exact fun a mem => Or.inl mem

/-- An assertion of the user does not concern the library. -/
theorem assert (h : ss.Pinned) {g : Handle} (inside : g.index < ss.nodes.size) :
  (ss.addAssertion g .user).Pinned
  := by
  have wk : (ss.addAssertion g .user).WellKinded := h.wellKinded.congr rfl rfl
  apply h.extend wk (extends_addAssertion g .user ss) rfl
  intro a mem
  obtain old | rfl := Array.mem_push.mp mem
  · exact Or.inl old
  · exact Or.inr ⟨rfl, inside⟩

/-- A pinned session is cut down to its own sizes without a loss. -/
theorem cut_checkpoint (h : ss.Pinned) :
  (ss.cut ss.checkpoint).contents = ss.contents
  := by
  apply (cut_checkpoint_iff _).mpr
  · intro op hs c known
    obtain ⟨a, b, -, -, character⟩ := h.character known
    apply character.inside.2.2
  · intro n g known
    apply (Array.getElem?_eq_some_iff.mp (h.wellKinded.table known)).1

/-- A new character whose condition pins it. -/
theorem conclude (h : ss.Pinned) (character : ss.IsCharacter a b c)
    (new : ss.emulated? .charAt [a, b] = none) (fresh : ∀ op hs, ss.emulated? op hs ≠ some c)
    {condition : Value .bool} (held : ss.Holds condition)
    (pins : ∀ {M : Model}, M.Total ss →
      ∃ v, condition.ReadsAs (ss.reading M) v ∧ (v = true ↔ ss.Pins M a b c)) :
  (Emulation.conclude .charAt [a, b] c condition ss).2.Pinned
  := by
  obtain ⟨wk, inside, internal⟩ := h.wellKinded.require held h.asserted
  have grows := Emulation.growsTo_require condition ss
  generalize required : (Emulation.require condition ss).2 = tt at wk inside internal grows
  have known : ∀ op hs, (Emulation.remember .charAt [a, b] c tt).emulated? op hs
      = if (op, hs) = (.charAt, [a, b]) then some c else ss.emulated? op hs := by
    intro op hs
    rw [emulated?, Emulation.remember, FiniteMap.get?_insert, grows.emulations, emulated?]
  have nodes : (Emulation.remember .charAt [a, b] c tt).nodes = tt.nodes := rfl
  rw [Emulation.conclude_eq, required]
  -- The variable is in the session already, so that only its entry and its assertion are new.
  constructor
  · apply wk.congr nodes rfl
  · intro op hs d found
    rw [known] at found
    split at found
    case isTrue same =>
      cases same
      cases found
      use a, b, rfl, rfl
      apply (character.extend grows.toExtends).of_nodes nodes
    case isFalse =>
      obtain ⟨a', b', hop, hhs, old⟩ := h.character found
      use a', b', hop, hhs
      apply (old.extend grows.toExtends).of_nodes nodes
  · intro op hs op' hs' d found found'
    rw [known] at found found'
    split at found <;> split at found'
    case isTrue.isTrue same same' =>
      cases same
      cases same'
      exact ⟨rfl, rfl⟩
    case isTrue.isFalse =>
      cases found
      exact absurd found' (fresh op' hs')
    case isFalse.isTrue =>
      cases found'
      exact absurd found (fresh op hs)
    case isFalse.isFalse => apply h.distinct found found'
  · apply inside
  · intro M total
    have total : M.Total tt := total
    have total := total.of_extends grows.toExtends
    obtain ⟨v, reads, pins⟩ := pins total
    rw [internalTrue_remember, internal reads, pins, h.exact total]
    simp only [pins_of_nodes nodes, known]
    constructor
    · rintro ⟨old, new⟩ a' b' d found
      split at found
      case isTrue same =>
        cases same
        cases found
        apply (grows.pins_iff M character).mpr new
      case isFalse =>
        obtain ⟨_, _, -, ⟨⟩, character⟩ := h.character found
        apply (grows.pins_iff M character).mpr (old _ _ _ found)
    · intro all
      constructor
      · intro a' b' d found
        obtain ⟨_, _, -, ⟨⟩, character⟩ := h.character found
        apply (grows.pins_iff M character).mp
        apply all
        rw [if_neg, found]
        intro same
        cases same
        rw [new] at found
        cases found
      · apply (grows.pins_iff M character).mp
        apply all
        rw [if_pos rfl]

/-- A new variable with the condition of a character is a pinned character. -/
theorem describe (h : ss.Pinned) {s : Value .string} {i : Value .int} {condition : Value .bool}
    (describes : Strings.Describes ByteString.slice ss s i condition tt) (hs : ss.Holds s)
    (hi : ss.Holds i) (string : ss.kind? a = some .string) (position : ss.kind? b = some .int)
    (reads : ∀ {M : Model} {cs m}, s.ReadsAs (ss.reading M) cs → i.ReadsAs (ss.reading M) m →
      ss.reading M a = some (.string cs) ∧ ss.reading M b = some (.int m))
    (new : ss.emulated? .charAt [a, b] = none) :
  (Emulation.conclude .charAt [a, b] ss.next condition tt).2.Pinned
  := by
  have grows := describes.toExtends
  have known : ∀ op hs, tt.emulated? op hs = ss.emulated? op hs := fun op hs => by
    rw [emulated?, describes.emulations, emulated?]
  have character : tt.IsCharacter a b ss.next :=
    ⟨grows.kind? string, grows.kind? position, ⟨_, describes.isVariable⟩,
      index_lt_of_kind? string, index_lt_of_kind? position⟩
  have pinned : tt.Pinned := by
    apply h.extend describes.wellKinded grows describes.emulations
    intro a mem
    left
    rwa [describes.assertions] at mem
  apply pinned.conclude character _ _ describes.holds
  · intro M total
    obtain ⟨cs, hcs⟩ := h.wellKinded.exists_readsAs (total.of_extends grows) hs
    obtain ⟨m, hm⟩ := h.wellKinded.exists_readsAs (total.of_extends grows) hi
    obtain ⟨x, hx⟩ := total _ _ _ describes.isVariable
    obtain ⟨ha, hb⟩ := reads hcs hm
    rw [← grows.reading M (index_lt_of_kind? string)] at ha
    rw [← grows.reading M (index_lt_of_kind? position)] at hb
    rw [reading_eq_readingWith] at hcs hm
    obtain ⟨v, hv, meaning⟩ := describes.reads hcs hm hx
    rw [← reading_eq_readingWith] at hv
    use v, hv
    rw [meaning, pins_iff ha hb (reading_var describes.isVariable hx)]
  · rw [known, new]
  · intro op hs found
    rw [known] at found
    obtain ⟨_, _, -, -, old⟩ := h.character found
    apply Nat.lt_irrefl _ old.inside.2.2

/-- Introducing a character, or giving it again, keeps a session pinned. -/
theorem extract (h : ss.Pinned) {s : Value .string} {i : Value .int} (hs : ss.Holds s)
    (hi : ss.Holds i) :
  (Strings.extract s i ss).2.Pinned
  := by
  obtain ⟨shares, wk, string, position, reads⟩ := Strings.named_spec h.wellKinded hs hi
  have named := h.share wk shares
  rw [Strings.extract_eq]
  cases found : (Strings.named s i ss).2.emulated? .charAt
      [(Strings.named s i ss).1.1, (Strings.named s i ss).1.2] with
  | some c =>
      rw [Emulation.introduce_of_known found]
      have same : (Emulation.countReuse (Strings.named s i ss).2).contents
        = (Strings.named s i ss).2.contents := rfl
      apply named.of_contents same
  | none =>
      rw [Emulation.introduce_of_new _ found]
      have hs := shares.holds hs
      have hi := shares.holds hi
      have describes := Strings.describes_defined Slicing.exact_slice wk hs hi
      apply named.describe describes hs hi string position _ found
      intro M cs m hcs hm
      apply reads (wk.interprets_reading M) hcs hm

/-- Looking up a character keeps a session pinned. -/
theorem charAt (h : ss.Pinned) {s : Value .string} {i : Value .int} (hs : ss.Holds s)
    (hi : ss.Holds i) :
  (Strings.charAt s i ss).2.Pinned
  := by
  obtain ⟨c, known⟩ | extracted := Strings.charAt_cases s i ss
  · rw [known]
    apply h
  · rw [extracted]
    apply h.extract hs hi

/-- Every operation on values of the session keeps it pinned. -/
theorem operate (h : ss.Pinned) {ks : List Kind} {r : Kind} (o : Operation ks r)
    {xs : Operands Value ks} (hx : ss.HoldsAll xs) :
  (o.build xs ss).2.Pinned
  := by
  cases plain : o.extracts with
  | false =>
      have computes := o.computes_build h.wellKinded hx plain
      apply h.share computes.wellKinded computes.shares
  | true =>
      cases o <;> cases plain
      case first.refl =>
        obtain _ | ⟨s, _ | _⟩ := xs
        have zero : ss.Holds (.int 0) := True.intro
        apply h.charAt hx.1 zero
      case charAt.refl =>
        obtain _ | ⟨s, _ | ⟨i, _ | _⟩⟩ := xs
        apply h.charAt hx.1 hx.2.1
      case extract.refl =>
        obtain _ | ⟨s, _ | ⟨i, _ | _⟩⟩ := xs
        apply h.extract hx.1 hx.2.1

end Pinned

end Session

end StringTerms
