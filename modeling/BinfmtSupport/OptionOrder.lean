import BinfmtSupport.FormatFile
import BinfmtSupport.Shuffles

/-!
The language of the option parser. parse_opt is called for one option after the other and ends
the process at the first complaint; what it accepts does not depend on that order. Options of
different kinds can change places, and only --credentials and --preserve may be repeated with
different arguments, where the last one counts.
-/
namespace BinfmtSupport.OptionOrder

open CText Journal Stores Actions CommandLine FormatFile Shuffles

section Steps

def single : Slot → Bool
  | .credentials => false
  | .preserve => false
  | .test => false
  | _ => true

/-- An option that has the operands it needs, and an offset of digits. -/
def Complete : Opt → Prop
  | .mode .install following => 2 ≤ following.length
  | .mode .remove following => 2 ≤ following.length
  | .mode .find following => following ≠ []
  | .offset arg => isWholeNumber arg = true
  | _ => True

def keep (o : Options) : Opt → Options
  | .mode .install following =>
      { o with mode := some .install, name := following[0]?, interpreter := following[1]? }
  | .mode .remove following =>
      { o with mode := some .remove, name := following[0]?, interpreter := following[1]? }
  | .mode .find following => { o with mode := some .find, executable := following[0]? }
  | .mode m following => { o with mode := some m, name := following[0]?.or o.name }
  | opt => assign o opt

theorem parseOpt_eq_ok_iff {o o' : Options} {opt : Opt} :
    parseOpt o opt = .ok o' ↔ Complete opt ∧ Vacant o (slot opt) ∧ keep o opt = o' := by
  cases opt with
  | mode m following =>
    rw [parseOpt, setMode]
    cases hmode : o.mode with
    | some first =>
      constructor
      · intro h
        cases h
      · rintro ⟨-, hvacant, -⟩
        rw [slot, Vacant, hmode] at hvacant
        cases hvacant
    | none =>
      change takeOperands { o with mode := some m } m following = .ok o' ↔ _
      cases m <;> rcases following with _ | ⟨name, _ | ⟨path, rest⟩⟩ <;>
        simp [takeOperands, Complete, Vacant, slot, keep, hmode]
  | magic arg =>
    rw [parseOpt, setType]
    cases htype : o.type with
    | some first => simp [Vacant, slot, htype]
    | none => simp [Complete, Vacant, slot, keep, assign, htype]
  | extension arg =>
    rw [parseOpt, setType]
    cases htype : o.type with
    | some first => simp [Vacant, slot, htype]
    | none => simp [Complete, Vacant, slot, keep, assign, htype]
  | mask arg =>
    cases hmask : o.mask with
    | some first => simp [parseOpt, Vacant, slot, hmask]
    | none => simp [parseOpt, Complete, Vacant, slot, keep, assign, hmask]
  | offset arg =>
    cases hoffset : o.offset with
    | some first => simp [parseOpt, Vacant, slot, hoffset]
    | none =>
      by_cases hdigits : isWholeNumber arg = true
      · simp [parseOpt, Complete, Vacant, slot, keep, assign, hoffset, hdigits]
      · simp [parseOpt, Complete, hoffset, hdigits]
  | detector arg =>
    cases hdetector : o.detector with
    | some first => simp [parseOpt, Vacant, slot, hdetector]
    | none => simp [parseOpt, Complete, Vacant, slot, keep, assign, hdetector]
  | package arg =>
    cases hpackage : o.package with
    | some first => simp [parseOpt, Vacant, slot, hpackage]
    | none => simp [parseOpt, Complete, Vacant, slot, keep, assign, hpackage]
  | credentials arg => simp [parseOpt, Complete, Vacant, slot, keep, assign]
  | preserve arg => simp [parseOpt, Complete, Vacant, slot, keep, assign]
  | test => simp [parseOpt, Complete, Vacant, slot, keep, assign]

/-- After an option its own kind is taken, unless it may be repeated, and no other. -/
theorem vacant_keep {o : Options} {opt : Opt} {k : Slot} :
    Vacant (keep o opt) k ↔ Vacant o k ∧ (slot opt = k → single k = false) := by
  cases opt with
  | mode m following => cases m <;> cases k <;> simp [Vacant, keep, slot, single]
  | _ => cases k <;> simp [Vacant, keep, assign, slot, single]

theorem keep_comm (o : Options) (a b : Opt) (hne : slot a ≠ slot b) :
    keep (keep o a) b = keep (keep o b) a := by
  cases a with
  | mode m following =>
    cases b with
    | mode m' following' => exact absurd rfl hne
    | _ => cases m <;> rfl
  | _ =>
    cases b with
    | mode m following => cases m <;> rfl
    | _ => first | rfl | exact absurd rfl hne

end Steps

section Lists
variable {o : Options} {opt : Opt} {opts opts' : List Opt}

structure Fits (o : Options) (opts : List Opt) : Prop where
  complete : ∀ opt ∈ opts, Complete opt
  once : ((opts.map slot).filter single).Nodup
  vacant : ∀ opt ∈ opts, Vacant o (slot opt)

theorem Fits.perm (h : Fits o opts) (hperm : opts'.Perm opts) : Fits o opts' where
  complete opt hopt := h.complete opt (hperm.mem_iff.mp hopt)
  once := ((hperm.map slot).filter single).nodup_iff.mpr h.once
  vacant opt hopt := h.vacant opt (hperm.mem_iff.mp hopt)

theorem once_cons : (((opt :: opts).map slot).filter single).Nodup ↔
    (∀ x ∈ opts, slot opt = slot x → single (slot x) = false) ∧
      ((opts.map slot).filter single).Nodup := by
  rw [List.map_cons]
  cases hsingle : single (slot opt) with
  | false =>
    rw [List.filter_cons_of_neg (by simp [hsingle])]
    refine ⟨fun h => ⟨fun x _ heq => heq ▸ hsingle, h⟩, fun h => h.2⟩
  | true =>
    rw [List.filter_cons_of_pos hsingle, List.nodup_cons, List.mem_filter]
    refine and_congr_left (fun _ => ⟨fun hnot x hx heq => ?_, fun hall hmem => ?_⟩)
    · exact absurd ⟨List.mem_map.mpr ⟨x, hx, heq.symm⟩, hsingle⟩ hnot
    · obtain ⟨x, hx, heq⟩ := List.mem_map.mp hmem.1
      have hrepeat := hall x hx heq.symm
      rw [heq, hsingle] at hrepeat
      cases hrepeat

theorem fits_cons : Fits o (opt :: opts) ↔
    Complete opt ∧ Vacant o (slot opt) ∧ Fits (keep o opt) opts := by
  constructor
  · intro h
    obtain ⟨hother, honce⟩ := once_cons.mp h.once
    refine ⟨h.complete opt List.mem_cons_self, h.vacant opt List.mem_cons_self,
      fun x hx => h.complete x (List.mem_cons_of_mem opt hx), honce, fun x hx => ?_⟩
    exact vacant_keep.mpr ⟨h.vacant x (List.mem_cons_of_mem opt hx), hother x hx⟩
  · rintro ⟨hcomplete, hvacant, h⟩
    refine ⟨List.forall_mem_cons.mpr ⟨hcomplete, h.complete⟩,
      once_cons.mpr ⟨fun x hx => ?_, h.once⟩,
      List.forall_mem_cons.mpr ⟨hvacant, fun x hx => ?_⟩⟩
    · exact (vacant_keep.mp (h.vacant x hx)).2
    · exact (vacant_keep.mp (h.vacant x hx)).1

/-- The parser takes a list that fits, and then looks at what all options have left. -/
theorem parseFrom_eq_ok_iff {o' : Options} : parseFrom o opts = .ok o' ↔
    Fits o opts ∧ parseSuccess (opts.foldl keep o) = .ok o' := by
  induction opts generalizing o with
  | nil => exact ⟨fun h => ⟨⟨by simp, by simp, by simp⟩, h⟩, fun h => h.2⟩
  | cons opt rest ih =>
    rw [fits_cons, List.foldl_cons, parseFrom]
    constructor
    · intro h
      cases hopt : parseOpt o opt with
      | error why =>
        rw [hopt] at h
        cases h
      | ok o₁ =>
        rw [hopt] at h
        obtain ⟨hcomplete, hvacant, rfl⟩ := parseOpt_eq_ok_iff.mp hopt
        obtain ⟨hfits, hsuccess⟩ := ih.mp h
        exact ⟨⟨hcomplete, hvacant, hfits⟩, hsuccess⟩
    · rintro ⟨⟨hcomplete, hvacant, hfits⟩, hsuccess⟩
      rw [parseOpt_eq_ok_iff.mpr ⟨hcomplete, hvacant, rfl⟩]
      exact ih.mpr ⟨hfits, hsuccess⟩

/-- Options of one kind that keep their order are shuffled with the others. -/
theorem shuffled_of_perm (hfits : Fits o opts) (hperm : opts.Perm opts')
    (hcredentials : ofClass slot .credentials opts = ofClass slot .credentials opts')
    (hpreserve : ofClass slot .preserve opts = ofClass slot .preserve opts') :
    Shuffled slot opts opts' := by
  intro k
  have htests : ∀ xs : List Opt, ofClass slot .test xs =
      List.replicate (ofClass slot .test xs).length .test := by
    intro xs
    refine List.eq_replicate_of_mem (fun x hx => ?_)
    have hslot := (mem_ofClass.mp hx).2
    cases x <;> first | rfl | cases hslot
  by_cases hsingle : single k = true
  · refine ofClass_eq_of_perm hperm ?_
    have hcount : (ofClass slot k opts).length = ((opts.map slot).filter single).count k := by
      rw [List.count_filter hsingle, List.count, List.countP_map, ofClass,
        List.countP_eq_length_filter]
      congr 2
    rw [hcount]
    exact List.nodup_iff_count_le_one.mp hfits.once k
  · cases k with
    | credentials => exact hcredentials
    | preserve => exact hpreserve
    | test =>
      have hlength : (ofClass slot .test opts).length = (ofClass slot .test opts').length :=
        (hperm.filter _).length_eq
      rw [htests opts, htests opts', hlength]
    | _ => exact absurd rfl hsingle

end Lists

section Grammar
variable {opts opts' : List Opt}

/-- One mode, and for an installation a specification and a name that can be used. -/
structure Grammatical (opts : List Opt) : Prop where
  complete : ∀ opt ∈ opts, Complete opt
  once : ((opts.map slot).filter single).Nodup
  mode : ∃ m following, Opt.mode m following ∈ opts ∧ (m = .install →
    (∃ opt ∈ opts, slot opt = .spec) ∧ isReserved (following.headD []) = false)

theorem keep_other {o : Options} {opt : Opt} (h : slot opt ≠ .mode) :
    (keep o opt).mode = o.mode ∧ (keep o opt).name = o.name := by
  cases opt with
  | mode m following => exact absurd rfl h
  | _ => exact ⟨rfl, rfl⟩

theorem foldl_keep_other {o : Options} (h : ∀ opt ∈ opts, slot opt ≠ .mode) :
    (opts.foldl keep o).mode = o.mode ∧ (opts.foldl keep o).name = o.name := by
  induction opts generalizing o with
  | nil => exact ⟨rfl, rfl⟩
  | cons opt rest ih =>
    obtain ⟨hmode, hname⟩ := keep_other (o := o) (h opt List.mem_cons_self)
    obtain ⟨hmode', hname'⟩ := ih (o := keep o opt) (fun x hx => h x (List.mem_cons_of_mem opt hx))
    exact ⟨hmode'.trans hmode, hname'.trans hname⟩

theorem foldl_keep_type {o : Options} : (opts.foldl keep o).type.isSome = true ↔
    o.type.isSome = true ∨ ∃ opt ∈ opts, slot opt = .spec := by
  induction opts generalizing o with
  | nil => simp
  | cons opt rest ih =>
    have hstep : (keep o opt).type.isSome = true ↔ o.type.isSome = true ∨ slot opt = .spec := by
      cases opt with
      | mode m following => cases m <;> simp [keep, slot]
      | _ => simp [keep, assign, slot]
    rw [List.foldl_cons, ih, hstep, or_assoc, List.exists_mem_cons_iff]

/-- The one mode among the options is the one that they leave. -/
theorem foldl_keep_mode {m : Mode} {following : List Text}
    (honce : ((opts.map slot).filter single).Nodup) (hmem : Opt.mode m following ∈ opts) :
    (opts.foldl keep .none).mode = some m ∧
      (m = .install → (opts.foldl keep .none).name = following[0]?) := by
  obtain ⟨before, after, rfl⟩ := List.append_of_mem hmem
  have hafter : ∀ x ∈ after, slot x ≠ .mode := by
    rw [List.map_append, List.filter_append] at honce
    obtain ⟨hother, -⟩ := once_cons.mp honce.of_append_right
    intro x hx heq
    have hrepeat := hother x hx heq.symm
    rw [heq] at hrepeat
    cases hrepeat
  rw [List.foldl_append, List.foldl_cons]
  obtain ⟨hmode, hname⟩ := foldl_keep_other
    (o := keep (before.foldl keep .none) (.mode m following)) hafter
  rw [hmode, hname]
  cases m <;> exact ⟨rfl, fun h => by cases h <;> rfl⟩

theorem exists_mode_of_foldl {m : Mode} (honce : ((opts.map slot).filter single).Nodup)
    (h : (opts.foldl keep .none).mode = some m) : ∃ following, Opt.mode m following ∈ opts := by
  by_contra hnone
  have hother : ∀ opt ∈ opts, slot opt ≠ .mode := by
    intro opt hopt heq
    cases opt with
    | mode m' following =>
      have hmode := (foldl_keep_mode honce hopt).1
      rw [h, Option.some.injEq] at hmode
      exact hnone ⟨following, hmode ▸ hopt⟩
    | _ => cases heq
  rw [(foldl_keep_other hother).1] at h
  cases h

theorem parseSuccess_eq_ok_iff {o o' : Options} : parseSuccess o = .ok o' ↔ o = o' ∧
    ∃ m, o.mode = some m ∧ (m = .install →
      o.type.isSome = true ∧ (o.name.map isReserved).getD false = false) := by
  rw [parseSuccess]
  cases o.mode with
  | none => simp
  | some m =>
    cases m with
    | install =>
      cases o.type with
      | none => simp
      | some type =>
        cases hreserved : (o.name.map isReserved).getD false with
        | true => simp
        | false => simp
    | _ => simp

/-- The parser accepts a list of options if it is complete, has no option twice that may be
given once, and asks for one thing; what it makes of it is what each option leaves. -/
theorem parse_iff (opts : List Opt) (o : Options) :
    parse opts = .ok o ↔ Grammatical opts ∧ opts.foldl keep .none = o := by
  have hreserved : ∀ following : List Text,
      (following[0]?.map isReserved).getD false = isReserved (following.headD []) := by
    intro following
    cases following with
    | nil => decide
    | cons name rest => rfl
  rw [parse, parseFrom_eq_ok_iff, parseSuccess_eq_ok_iff]
  constructor
  · rintro ⟨hfits, hkeep, m, hmode, hinstall⟩
    obtain ⟨following, hmem⟩ := exists_mode_of_foldl hfits.once hmode
    refine ⟨⟨hfits.complete, hfits.once, m, following, hmem, fun hm => ?_⟩, hkeep⟩
    obtain ⟨htype, hname⟩ := hinstall hm
    rw [(foldl_keep_mode hfits.once hmem).2 hm, hreserved] at hname
    exact ⟨(foldl_keep_type.mp htype).resolve_left (by decide), hname⟩
  · rintro ⟨⟨hcomplete, honce, m, following, hmem, hinstall⟩, hkeep⟩
    have hvacant : ∀ opt ∈ opts, Vacant .none (slot opt) := by
      intro opt _
      cases opt <;> trivial
    obtain ⟨hmode, hname⟩ := foldl_keep_mode honce hmem
    refine ⟨⟨hcomplete, honce, hvacant⟩, hkeep, m, hmode, fun hm => ?_⟩
    obtain ⟨hspec, hfree⟩ := hinstall hm
    rw [hname hm, hreserved]
    exact ⟨foldl_keep_type.mpr (Or.inr hspec), hfree⟩

theorem parse_of_shuffled (hperm : opts.Perm opts')
    (hcredentials : ofClass slot .credentials opts = ofClass slot .credentials opts')
    (hpreserve : ofClass slot .preserve opts = ofClass slot .preserve opts') {o : Options}
    (h : parse opts = .ok o) : parse opts' = .ok o := by
  rw [parse, parseFrom_eq_ok_iff] at h ⊢
  refine ⟨h.1.perm hperm.symm, ?_⟩
  rw [← (shuffled_of_perm h.1 hperm hcredentials hpreserve).foldl_eq keep_comm]
  exact h.2

/-- The order of the options means nothing, apart from that among several --credentials and
among several --preserve: whatever is asked for, the whole run is the same. -/
theorem main_of_shuffled (env : Env) (opts opts' : List Opt) (hperm : opts.Perm opts')
    (hcredentials : ofClass slot .credentials opts = ofClass slot .credentials opts')
    (hpreserve : ofClass slot .preserve opts = ofClass slot .preserve opts') :
    CommandLine.main env opts = CommandLine.main env opts' := by
  rw [CommandLine.main, CommandLine.main]
  cases hparse : parse opts with
  | ok o => rw [parse_of_shuffled hperm hcredentials hpreserve hparse]
  | error why =>
    cases hparse' : parse opts' with
    | error why' => rfl
    | ok o =>
      have hback := parse_of_shuffled hperm.symm hcredentials.symm hpreserve.symm hparse'
      rw [hparse] at hback
      cases hback

theorem main_of_shuffled_plain :
    CommandLine.main plainEnv [.magic (text "AB"), .credentials (text "yes"),
        .mode .install [text "a", text "/a"], .credentials (text "no")] =
      CommandLine.main plainEnv [.credentials (text "yes"), .credentials (text "no"),
        .mode .install [text "a", text "/a"], .magic (text "AB")] :=
  main_of_shuffled plainEnv _ _ (by decide) (by decide) (by decide)

end Grammar

end BinfmtSupport.OptionOrder
