import StringTerms.Proofs.Edit
import StringTerms.Proofs.Extraction

/-!
# Edits in a discipline

Where a new variable may be used, and may be concluded as an emulated value, an extraction of a
character leaves a sound session.  Where moreover all nodes may be used, and variables and assertions
may be added, so does every edit on usable operands.
-/

namespace StringTerms.Discipline

variable {D : Discipline} {ss tt : Session} {k r : Kind} {ks : List Kind}

/-- A new variable may be used, and may be concluded as an emulated value by an admitted
condition. -/
structure Introduces (D : Discipline) : Prop where
  reuse : ∀ {ss}, D.sound ss → D.sound (Emulation.countReuse ss)
  begin : ∀ {ss} (k : Kind), D.sound ss →
    D.sound (Session.freshInternal k ss).2 ∧ D.usable (Session.freshInternal k ss).2 k ss.next
  conclude : ∀ {ss tt k op hs condition}, (Session.freshInternal k ss).2.Extends tt → D.sound tt →
    D.Admits tt condition → D.sound (Emulation.conclude op hs ss.next condition tt).2

namespace Introduces

variable {s : Value .string} {i : Value .int}

/-- Naming a string and a position leaves a sound session. -/
theorem named (sound : D.sound ss) (hs : D.Admits ss s) (hi : D.Admits ss i) :
  D.sound (Strings.named s i ss).2 ∧ ss.Extends (Strings.named s i ss).2
  := by
  have string := ((grows_handle s).grown ss).toExtends
  have position := ((grows_handle i).grown (s.handle ss).2).toExtends
  exact ⟨(handle (handle sound hs).1 (hi.mono string)).1, string.trans position⟩

/-- An extraction leaves a sound session. -/
theorem extract (introduces : D.Introduces) (sound : D.sound ss) (hs : D.Admits ss s)
    (hi : D.Admits ss i) :
  D.sound (Strings.extract s i ss).2
  := by
  obtain ⟨sound, grows⟩ := named sound hs hi
  have hs := hs.mono grows
  have hi := hi.mono grows
  rw [Strings.extract_eq]
  cases found : (Strings.named s i ss).2.emulated? .charAt
      [(Strings.named s i ss).1.1, (Strings.named s i ss).1.2] with
  | some h =>
      rw [Emulation.introduce_of_known found]
      apply introduces.reuse sound
  | none =>
      rw [Emulation.introduce_of_new _ found]
      have begun := (Session.growsTo_freshInternal .char (Strings.named s i ss).2).toExtends
      obtain ⟨sound, usable⟩ := introduces.begin .char sound
      have character : D.Admits _ (.node (Strings.named s i ss).2.next : Value .char) := usable
      have defined := follows_characterCondition sound (hs.mono begun) (hi.mono begun) character
      apply introduces.conclude defined.grows defined.sound defined.admits

end Introduces

/-! ### Edits -/

/-- Whatever an edit does to a sound session leaves it sound. -/
structure Closed (D : Discipline) : Prop where
  /-- Every node may be used. -/
  node : ∀ {ss k h}, ss.kind? h = some k → D.usable ss k h
  addVariable : ∀ {ss} (name : String) (k : Kind) (internal : Bool), D.sound ss →
    D.sound (Session.addVariable name k internal ss).2
  addAssertion : ∀ {ss h} (origin : Origin), D.sound ss → ss.kind? h = some .bool →
    D.sound (ss.addAssertion h origin)
  extract : ∀ {ss} {s : Value .string} {i : Value .int}, D.sound ss → D.Admits ss s →
    D.Admits ss i → D.sound (Strings.extract s i ss).2

/-- The operands of the edit may be used. -/
def AdmitsEdit (D : Discipline) (ss : Session) : Edit → Prop
  | .operate _ xs | .defer _ _ xs => D.AdmitsAll ss xs
  | .intern _ hs _ => ∀ g ∈ hs, ∃ k, D.usable ss k g
  | _ => True

/-- Where every handle may be used, the operands of every edit may be. -/
theorem admitsEdit_of_usable (usable : ∀ {ss k h}, D.usable ss k h) (e : Edit) :
  D.AdmitsEdit ss e
  := by
  cases e with
  | operate o xs => apply admitsAll_of_usable usable
  | defer r op xs => apply admitsAll_of_usable usable
  | intern op hs k => exact fun g _ => ⟨.bool, usable⟩
  | _ => trivial

namespace Closed

theorem charAt (closed : D.Closed) {s : Value .string} {i : Value .int} (sound : D.sound ss)
    (hs : D.Admits ss s) (hi : D.Admits ss i) :
  D.sound (Strings.charAt s i ss).2
  := by
  obtain ⟨c, known⟩ | extracted := Strings.charAt_cases s i ss
  · rw [known]
    apply sound
  · rw [extracted]
    apply closed.extract sound hs hi

/-- Every operation leaves a sound session. -/
theorem build (closed : D.Closed) (sound : D.sound ss) (o : Operation ks r) {xs : Operands Value ks}
    (held : D.AdmitsAll ss xs) :
  D.sound (o.build xs ss).2
  := by
  cases plain : o.extracts with
  | false => apply (follows_build sound o xs held plain).sound
  | true =>
      cases o <;> cases plain
      case first.refl =>
        obtain _ | ⟨s, _ | _⟩ := xs
        have zero : D.Admits ss (.int 0) := True.intro
        apply closed.charAt sound held.1 zero
      case charAt.refl =>
        obtain _ | ⟨s, _ | ⟨i, _ | _⟩⟩ := xs
        apply closed.charAt sound held.1 held.2.1
      case extract.refl =>
        obtain _ | ⟨s, _ | ⟨i, _ | _⟩⟩ := xs
        apply closed.extract sound held.1 held.2.1

theorem record (closed : D.Closed) (sound : D.sound ss) (origin : Origin) (h : Handle) :
  D.sound ((Session.record origin h).run ss).2
  := by
  obtain same | ⟨kind, added⟩ := Session.record_cases origin h ss
  · rw [same]
    apply sound
  · rw [added]
    apply closed.addAssertion origin sound kind

/-- Every edit with usable operands leaves a sound session. -/
theorem perform (closed : D.Closed) (sound : D.sound ss) {e : Edit} (held : D.AdmitsEdit ss e) :
  D.sound (e.perform ss)
  := by
  cases e with
  | literal v =>
      have shared := D.share (n := .literal v) sound rfl (fun g mem => by cases mem)
      apply shared.1
  | declare name k => apply closed.addVariable name k false sound
  | fresh k => apply closed.addVariable _ k false sound
  | freshInternal k => apply closed.addVariable _ k true sound
  | apply op hs =>
      obtain same | ⟨j, kinds, shared⟩ := Session.apply_cases op hs ss
      · rw [Edit.perform, same]
        apply sound
      · rw [Edit.perform, shared]
        apply (D.share sound rfl _).1
        intro g mem
        obtain ⟨k, kind⟩ := kinds.exists_kind g mem
        exact ⟨k, closed.node kind⟩
  | intern op hs k =>
      have shared := D.share (n := .application op hs k) sound rfl held
      apply shared.1
  | defer r op xs => apply (follows_defer op sound held).sound
  | operate o xs => apply closed.build sound o held
  | assert h => apply closed.record sound .user h
  | assertInternal h => apply closed.record sound .internal h

end Closed

end StringTerms.Discipline
