import Dispatch.Proofs.Display.Literal
import Dispatch.Proofs.Equality
import Dispatch.Proofs.Grammar.Signature

/-!
# Signatures as they are shown

The shown form of a parsed signature is parsed as the same signature if its float defaults are
plain (`Signature.parse_display_iff`). With any other float among them it is not parsed, or not as
a signature that equals it. The name and the names of the parameters are words, so they are read to
their ends; each default is pinned by the comma or the bracket behind it.
-/

namespace Dispatch

namespace ParamKind

def default? : ParamKind → Option Literal
  | .required => none
  | .optional d => some d
  | .keyword d => d

inductive Same : ParamKind → ParamKind → Prop
  | required : Same .required .required
  | optional : (d.toValue == e.toValue) = true → Same (.optional d) (.optional e)
  | mandatory : Same (.keyword none) (.keyword none)
  | keyword : (d.toValue == e.toValue) = true → Same (.keyword (some d)) (.keyword (some e))

end ParamKind

structure Param.Same (p q : Param) : Prop where
  name : p.name = q.name
  kind : p.kind.Same q.kind

/-- Equal signatures, where defaults compare as values do: both zeros are one, and a NaN differs
from itself. -/
structure Signature.Same (sig sig' : Signature) : Prop where
  name : sig.name = sig'.name
  params : List.Forall₂ Param.Same sig.params sig'.params

def Param.Plain (p : Param) : Prop := ∀ d ∈ p.kind.default?, d.Plain

def Signature.Plain (sig : Signature) : Prop := ∀ p ∈ sig.params, p.Plain

theorem Form.methodName_toList (h : Form.MethodName t n) : Form.MethodName n.toList n := by
  cases h with
  | plain h => exact .plain (run_toList h)
  | marked h hm =>
    rw [String.toList_push]
    exact .marked (run_toList h) hm

theorem Literal.Written.regular (h : Literal.Written t l) : l.Regular := by
  rintro n rfl
  cases h with
  | symbol h => exact Form.run_toList h
  | number h => cases h
  | constant _ hl => simp [constants] at hl

theorem Literal.Written.ne_nan (h : Literal.Written t l) : l ≠ .float .nan := by
  intro he
  cases h with
  | number h =>
    cases h with
    | integer => cases he
    | float => exact Decimal.toDouble_ne_nan _ _ (Literal.float.inj he)
  | constant _ hl => simp [constants, he] at hl
  | _ => cases he

structure Param.Regular (p : Param) : Prop where
  name : Form.Word p.name.toList p.name
  default : ∀ d ∈ p.kind.default?, d.Regular

theorem Param.Written.regular (h : Param.Written t p) : p.Regular := by
  cases h with
  | required ht => exact ⟨Form.run_toList ht, by simp [ParamKind.default?]⟩
  | optional ht _ hd =>
    obtain ⟨-, hd⟩ := hd
    exact ⟨Form.run_toList ht, by simpa [ParamKind.default?] using hd.regular⟩
  | keyword ht _ hk =>
    refine ⟨Form.run_toList ht, fun d hd => ?_⟩
    cases hk with
    | absent => cases hd
    | present _ hk =>
      cases hd
      exact hk.regular

theorem Param.Written.same_self (h : Param.Written t p) : p.Same p := by
  refine ⟨rfl, ?_⟩
  cases h with
  | required => exact .required
  | optional _ _ hd =>
    obtain ⟨-, hd⟩ := hd
    exact .optional (Value.literal_beq_self hd.ne_nan)
  | keyword _ _ hk =>
    cases hk with
    | absent => exact .mandatory
    | present _ hd => exact .keyword (Value.literal_beq_self hd.ne_nan)

structure Signature.Regular (sig : Signature) : Prop where
  name : ∀ n ∈ sig.name, Form.MethodName n.toList n
  params : ∀ p ∈ sig.params, p.Regular

namespace Signature

theorem Written.params (h : Written s sig) : ∀ p ∈ sig.params, ∃ t, Param.Written t p := by
  obtain ⟨-, hparams, -⟩ := h
  cases hparams with
  | absent => simp
  | present _ h => exact Form.bracketed_forall h fun t _ ht => ⟨t, ht⟩

theorem Written.regular (h : Written s sig) : sig.Regular where
  name n hn := by
    obtain ⟨hname, -, -⟩ := h
    cases hname with
    | absent => cases hn
    | present _ h =>
      cases hn
      exact Form.methodName_toList h
  params p hp := by
    obtain ⟨t, ht⟩ := h.params p hp
    exact ht.regular

theorem Written.same_self (h : Written s sig) : sig.Same sig := by
  refine ⟨rfl, List.forall₂_same.mpr fun p hp => ?_⟩
  obtain ⟨t, ht⟩ := h.params p hp
  exact ht.same_self

end Signature

-- ---------------------------------------------------------------------
-- Shown defaults
-- ---------------------------------------------------------------------

def IsStop (c : Char) : Prop := c = ',' ∨ c = ')'

theorem IsStop.isEnd (h : IsStop c) : Literal.IsEnd c := .inr (h.imp_right .inl)

theorem IsStop.not_space (h : IsStop c) : ¬ IsSpace c := by
  rcases h with rfl | rfl <;> decide

theorem IsStop.not_lead (h : IsStop c) : ¬ Literal.IsLead c := by
  rcases h with rfl | rfl <;> decide

theorem skip_stop (hs : Before IsStop s) : Scan.skip s = s :=
  Scan.skip_run space_nil (hs.mono fun _ => IsStop.not_space)

namespace ParamKind

variable {d : Literal} {k : ParamKind} {s rest : List Char}

theorem skip_default (hd : d.Regular) (s : List Char) :
    Scan.skip (' ' :: (d.inspect ++ s)) = d.inspect ++ s :=
  Scan.skip_run space_blank (((Literal.inspect_begins hd).before s).mono fun _ h => h.not_space)

/-- A literal that is read where a default is shown, and up to a stop, is the default's text. -/
theorem spaced_default (hd : d.Regular) (hu : Literal.Written.Spaced u l)
    (heq : u ++ rest = ' ' :: (d.inspect ++ s)) (hs : Before IsStop s)
    (hr : Before IsStop (Scan.skip rest)) :
    Scan.skip rest = s ∧ ((l.toValue == d.toValue) = true → d.Plain) := by
  have hpins := (Literal.pins_inspect hd).spaced Literal.written_starts (Literal.inspect_begins hd)
    (fun _ h => h.not_space) space_blank
  have hend : Before Literal.IsEnd rest := by
    obtain ⟨a, ha, he⟩ := Scan.exists_skip rest
    rw [he]
    exact before_append (fun c hc => .inl (ha c hc)) (hr.mono fun _ => IsStop.isEnd)
  obtain ⟨rfl, hl⟩ := hpins u l rest s hu heq hend (hs.mono fun _ => IsStop.isEnd)
  have hrest : rest = s := List.append_cancel_left heq
  exact ⟨by rw [hrest, skip_stop hs], hl⟩

theorem read_optional_default (hd : d.Regular) (hs : Before IsStop s)
    (hread : read.toScan ('=' :: ' ' :: (d.inspect ++ s)) = some (k, rest))
    (hr : Before IsStop (Scan.skip rest)) :
    Scan.skip rest = s ∧ (k.Same (.optional d) → d.Plain) := by
  rcases read_sound hread with ⟨-, rfl⟩ | ⟨u, l, hu, hl, rfl⟩ | ⟨u, l, hu, -⟩
  · exact absurd (before_cons.mp hr) (by simp [IsStop])
  · obtain ⟨hrest, hplain⟩ := spaced_default hd hl (List.cons.inj hu).2.symm hs hr
    refine ⟨hrest, fun h => ?_⟩
    cases h with
    | optional h => exact hplain h
  · cases hu

theorem read_keyword_default (hd : d.Regular) (hs : Before IsStop s)
    (hread : read.toScan (':' :: ' ' :: (d.inspect ++ s)) = some (k, rest))
    (hr : Before IsStop (Scan.skip rest)) :
    Scan.skip rest = s ∧ (k.Same (.keyword (some d)) → d.Plain) := by
  rcases read_sound hread with ⟨-, rfl⟩ | ⟨u, l, hu, -⟩ | ⟨u, l, hu, hl, rfl⟩
  · exact absurd (before_cons.mp hr) (by simp [IsStop])
  · cases hu
  · have heq : u ++ rest = ' ' :: (d.inspect ++ s) := (List.cons.inj hu).2.symm
    cases hl with
    | absent =>
      -- the literal was left, but no parameter is followed by one
      rw [List.nil_append] at heq
      rw [heq, skip_default hd] at hr
      obtain ⟨c, v, hv, hc⟩ := Literal.inspect_begins hd
      rw [hv] at hr
      exact absurd hc (IsStop.not_lead (before_cons.mp hr))
    | present ha hl =>
      obtain ⟨hrest, hplain⟩ := spaced_default hd (.intro ha hl) heq hs hr
      refine ⟨hrest, fun h => ?_⟩
      cases h with
      | keyword h => exact hplain h

end ParamKind

-- ---------------------------------------------------------------------
-- Parameters
-- ---------------------------------------------------------------------

namespace Param

theorem inspect_begins {p : Param} (h : p.Regular) : Begins IsFirst p.inspect :=
  ((Form.run_starts IsFirst).begins h.name).append _

theorem written_inspect {p : Param} (h : p.Regular) (hp : p.Plain) : Written p.inspect p := by
  obtain ⟨n, kind⟩ := p
  obtain ⟨hn, hd⟩ := h
  have hdefault : ∀ d ∈ kind.default?, Literal.Written d.inspect d := fun d hm =>
    Literal.written_inspect (hd d hm) (hp d hm)
  cases kind with
  | required =>
    rw [inspect, List.append_nil]
    exact .required hn
  | optional d => exact .optional hn space_blank (.intro space_blank (hdefault d rfl))
  | keyword k =>
    cases k with
    | none => exact .keyword hn space_nil .absent
    | some d => exact .keyword hn space_nil (.present space_blank (hdefault d rfl))

theorem read_padded_inspect {p : Param} {k : List Char} (h : p.Regular) (ha : Space a)
    (hb : Space b) (hk : Before (fun c => ¬ IsPart c ∧ ¬ IsSpace c) k)
    (hread : Scan.padded read.toScan (a ++ (p.name.toList ++ (b ++ k))) = some (q, r)) :
    ∃ rest, ParamKind.read.toScan k = some (q.kind, rest) ∧ r = Scan.skip rest := by
  have hstart : Before (¬ IsSpace ·) (p.name.toList ++ (b ++ k)) :=
    (((Form.run_starts IsFirst).begins h.name).before _).mono fun _ h => h.not_space
  rw [Scan.padded, Scan.skip_run ha hstart, read_word h.name hb hk, Option.map_map] at hread
  obtain ⟨⟨k', rest⟩, hkind, he⟩ := Option.map_eq_some_iff.mp hread
  cases he
  exact ⟨rest, hkind, rfl⟩

theorem pins_inspect {p : Param} (h : p.Regular) (ha : Space a) :
    Written.Padded.Pins IsStop (a ++ p.inspect) fun q => q.Same p → p.Plain := by
  by_cases hp : p.Plain
  · have hw := Form.padded_of_space ha (written_inspect h hp)
    exact (Form.pins_of_reads (fun size => ⟨_, reads_padded size⟩) hw).mono fun _ _ _ => hp
  · intro t q r s ht heq hr hs
    have hscan := padded_complete ht hr
    rw [heq] at hscan
    suffices r = s ∧ (q.Same p → p.Plain) by
      obtain ⟨rfl, hq⟩ := this
      exact ⟨List.append_cancel_right heq, hq⟩
    obtain ⟨n, kind⟩ := p
    cases kind with
    | required => exact absurd (by simp [Plain, ParamKind.default?]) hp
    | optional d =>
      have htext : a ++ inspect ⟨n, .optional d⟩ ++ s =
          a ++ (n.toList ++ ([' '] ++ '=' :: ' ' :: (d.inspect ++ s))) := by simp [inspect]
      rw [htext] at hscan
      obtain ⟨rest, hkind, rfl⟩ :=
        read_padded_inspect h ha space_blank (before_cons.mpr (by decide)) hscan
      obtain ⟨hrest, hd⟩ := ParamKind.read_optional_default (h.default d rfl) hs hkind hr
      exact ⟨hrest, fun hq => by simpa [Plain, ParamKind.default?] using hd hq.kind⟩
    | keyword k =>
      cases k with
      | none => exact absurd (by simp [Plain, ParamKind.default?]) hp
      | some d =>
        have htext : a ++ inspect ⟨n, .keyword (some d)⟩ ++ s =
            a ++ (n.toList ++ ([] ++ ':' :: ' ' :: (d.inspect ++ s))) := by simp [inspect]
        rw [htext] at hscan
        obtain ⟨rest, hkind, rfl⟩ :=
          read_padded_inspect h ha space_nil (before_cons.mpr (by decide)) hscan
        obtain ⟨hrest, hd⟩ := ParamKind.read_keyword_default (h.default d rfl) hs hkind hr
        exact ⟨hrest, fun hq => by simpa [Plain, ParamKind.default?] using hd hq.kind⟩

end Param

namespace Signature

def brackets (ps : List Param) : List Char :=
  if ps.isEmpty then [] else '(' :: (Text.listed (ps.map Param.inspect) ++ [')'])

theorem inspect_eq (sig : Signature) : sig.inspect = sig.methodName.toList ++ brackets sig.params :=
  rfl

theorem written_inspect {sig : Signature} (h : sig.Regular) (hp : sig.Plain) :
    Written sig.inspect sig := by
  obtain ⟨name, ps⟩ := sig
  obtain ⟨hname, hps⟩ := h
  have hn : Form.MethodName.Perhaps (methodName ⟨name, ps⟩).toList name := by
    cases name with
    | none => exact .absent
    | some n => exact .present space_nil (hname n rfl)
  have hbrackets : ∃ o, (Param.Written.Bracketed '(' ')').Perhaps (brackets ps) o ∧
      o.getD [] = ps := by
    cases ps with
    | nil => exact ⟨none, .absent, rfl⟩
    | cons p ps =>
      refine ⟨some (p :: ps), .present space_nil (Form.bracketed_listed _ _ ?_), rfl⟩
      exact List.forall₂_same.mpr fun q hq => Param.written_inspect (hps q hq) (hp q hq)
  obtain ⟨o, ho, rfl⟩ := hbrackets
  have hw := Written.intro hn ho (u := []) rfl
  rwa [List.append_nil] at hw

theorem read_name {sig : Signature} (h : sig.Regular) :
    Scan.optional (Scan.spaced Scan.methodName) sig.inspect = (sig.name, brackets sig.params) := by
  have hname : Form.MethodName.Perhaps sig.methodName.toList sig.name := by
    obtain ⟨_ | n, ps⟩ := sig
    · exact .absent
    · exact .present space_nil (h.name n rfl)
  have hbrackets : brackets sig.params = [] ∨ ∃ u, brackets sig.params = '(' :: u := by
    unfold brackets
    split
    · exact .inl rfl
    · exact .inr ⟨_, rfl⟩
  rw [inspect_eq]
  refine Scan.optional_complete (Scan.reads_methodName _) Form.methodName_starts
    (fun _ h => h.not_space) hname (Nat.le_refl _) ?_ ?_
  · rcases hbrackets with he | ⟨u, he⟩ <;> rw [he]
    · exact before_nil
    · exact before_cons.mpr (by decide)
  · rcases hbrackets with he | ⟨u, he⟩ <;> rw [he]
    · exact before_nil
    · exact before_cons.mpr (by decide)

theorem params_pins {ps : List Param} (h : ∀ p ∈ ps, p.Regular) :
    (Param.Written.Bracketed '(' ')').Pins (fun _ => True)
      ('(' :: (Text.listed (ps.map Param.inspect) ++ [')']))
      (List.Forall₂ (fun p q => q.Same p → p.Plain) ps) := by
  have hfirst : ∀ c, IsFirst c → ¬ IsSpace c ∧ c ≠ ')' := by
    refine fun c hc => ⟨hc.not_space, ?_⟩
    rintro rfl
    exact absurd hc (by decide)
  exact Form.bracketed_pins (fun p hp _ ha => Param.pins_inspect (h p hp) ha)
    Param.written_starts (fun p hp => Param.inspect_begins (h p hp)) hfirst (by decide) (by decide)

theorem read_inspect {sig : Signature} (h : sig.Regular) :
    let params := Scan.optional (Scan.spaced (Scan.bracketed '(' ')' Param.read.toScan))
      (brackets sig.params)
    read sig.inspect = .ok (⟨sig.name, params.1.getD []⟩, Scan.skip params.2) := by
  simp only [read_eq, read_name h]

theorem brackets_pins {ps : List Param} (h : ∀ p ∈ ps, p.Regular) (hne : ps ≠ [])
    (hread : Scan.optional (Scan.spaced (Scan.bracketed '(' ')' Param.read.toScan))
      (brackets ps) = (o, rest)) (hb : Text.blank rest = true) :
    List.Forall₂ (fun p q => q.Same p → p.Plain) ps (o.getD []) := by
  have hbrackets : brackets ps = '(' :: (Text.listed (ps.map Param.inspect) ++ [')']) := by
    simp [brackets, hne]
  obtain ⟨t, htext, ht⟩ := Scan.optional_sound (reads_params 0) (brackets ps)
  rw [hread, hbrackets] at htext
  rw [hread] at ht
  dsimp only at htext ht
  cases ht with
  | absent =>
    -- the brackets are left, but only blanks may be
    rw [List.nil_append] at htext
    rw [← htext] at hb
    simp [Text.blank, Text.isBlank, Text.blankRanges] at hb
  | @present a t qs ha ht =>
    obtain ⟨c, u, rfl, rfl⟩ := (Form.bracketed_starts _ _ _).begins ht
    rw [List.append_assoc] at htext
    obtain ⟨-, heq⟩ := space_append_inj space_nil ha (before_cons.mpr (by decide))
      (before_cons.mpr (by decide)) htext
    exact (params_pins h _ qs rest [] ht (by rw [List.append_nil]; exact heq.symm)
      (fun _ _ => trivial) before_nil).2

/-- What is written where a signature is shown equals it only if its float defaults are plain. -/
theorem plain_of_written {sig sig' : Signature} (h : sig.Regular) (hw : Written sig.inspect sig')
    (hsame : sig'.Same sig) : sig.Plain := by
  obtain ⟨rest, hread, hb⟩ := read_of_written hw
  rw [read_inspect h] at hread
  cases hread
  rw [blank_skip] at hb
  by_cases hne : sig.params = []
  · simp [Plain, hne]
  · exact Form.forall_of_same (brackets_pins h.params hne rfl hb) hsame.params

/-- A signature that was parsed is parsed again from its shown form exactly if its float defaults
are plain. If one is not, what is parsed from it is no equal signature. -/
theorem parse_display_iff {text : String} {sig : Signature} (h : parse text = .ok sig) :
    (parse sig.display = .ok sig ↔ sig.Plain) ∧
    ∀ sig', parse sig.display = .ok sig' → sig'.Same sig → sig.Plain := by
  obtain ⟨hw, hnames⟩ := parse_eq_ok_iff.mp h
  have hr := hw.regular
  have hdisplay : sig.display.toList = sig.inspect := String.toList_ofList
  have hplain : ∀ sig', parse sig.display = .ok sig' → sig'.Same sig → sig.Plain := by
    intro sig' hp hsame
    have hw' := (parse_eq_ok_iff.mp hp).1
    rw [hdisplay] at hw'
    exact plain_of_written hr hw' hsame
  refine ⟨⟨fun hp => hplain sig hp ?_, fun hp => parse_eq_ok_iff.mpr ⟨?_, hnames⟩⟩, hplain⟩
  · exact hw.same_self
  · rw [hdisplay]
    exact written_inspect hr hp

/-- Of two neighbours only the one below `1e16` is parsed again. -/
theorem parse_display_bound :
    let sig (rank : Fin Double.ranks) : Signature :=
      ⟨some "f", [⟨"a", .optional (.float (.finite false rank))⟩, ⟨"b", .keyword none⟩]⟩
    let below := sig ⟨4846369599423283199, by decide⟩
    let bound := sig ⟨4846369599423283200, by decide⟩
    parse "f(a = 9999999999999998.0, b:)" = .ok below ∧ parse below.display = .ok below ∧
      parse "f(a = 10000000000000000.0, b:)" = .ok bound ∧ parse bound.display ≠ .ok bound := by
  intro sig below bound
  have hbelow : parse "f(a = 9999999999999998.0, b:)" = .ok below := by rfl
  have hbound : parse "f(a = 10000000000000000.0, b:)" = .ok bound := by rfl
  have hplain : ∀ rank : Fin Double.ranks,
      (sig rank).Plain ↔ Double.shown.isPlain rank = true := by
    intro rank
    rw [Double.isPlain_iff]
    simp [sig, Plain, Param.Plain, ParamKind.default?, Literal.Plain, Double.Plain]
  refine ⟨hbelow, ?_, hbound, ?_⟩
  · exact (parse_display_iff hbelow).1.mpr ((hplain _).mpr (by decide +kernel))
  · intro h
    exact absurd ((hplain _).mp ((parse_display_iff hbound).1.mp h)) (by decide +kernel)

end Signature

end Dispatch
