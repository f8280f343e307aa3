import ATLink.Grammar

/-!
# Final result codes behind a CRLF

`Ok` is parsed by `Response::acceptImpl`, which takes an optional CRLF first; `Error`, `CmsError`
and `CmeError` are parsed by `APacket::accept`, which does not.

* `ToleratesCrLf` — `FinalResultCode<>::accept` gives the same verdict and value on a text and on
  the text behind a CRLF, two characters further.
* `StartsWithError` — the text starts with one of the three error replies.

Principal result: `toleratesCrLf_iff` — the leading CRLF makes no difference exactly for the
texts that do not start with an error reply.
-/

namespace ATLink

open Deserializer ResponsePack

/-! ## Where a packet starts -/

/-- A packet at the start of a text without blanks in front starts with its tag. -/
theorem Packet.head {tag : Text} {ks : List FieldKind} {vs : List Int} {p s : Text}
    (hp : Packet tag ks vs p) (hne : tag ≠ []) (hps : p <+: s) (hs : ∀ c ∈ s.head?, c ∉ blanks) :
    s.head? = tag.head? := by
  obtain ⟨b, w, b', hb, -, -, rfl⟩ := hp
  obtain ⟨r, rfl⟩ := hps
  cases b with
  | nil => simp only [List.nil_append, List.append_assoc, List.head?_append_of_ne_nil _ hne]
  | cons c b => exact absurd (hb c List.mem_cons_self) (hs c rfl)

/-- A reply at the start of a text with neither blanks nor CR in front is a packet. -/
theorem Reply.packet {tag : Text} {ks : List FieldKind} {vs : List Int} {p s : Text}
    (hp : Reply tag ks vs p) (hps : p <+: s) (hs : Unspaced s) : Packet tag ks vs p := by
  obtain ⟨b, c, q, hb, hc, hq, rfl⟩ := hp
  obtain ⟨r, rfl⟩ := hps
  cases b with
  | cons d b => exact absurd (hb d List.mem_cons_self) (hs d rfl).1
  | nil =>
    rcases hc with rfl | rfl
    · exact hq
    · exact absurd rfl (hs 13 rfl).2

/-- A reply at the start of CRLF and `t` is a packet behind the CRLF. -/
theorem Reply.packet_of_crLf {tag : Text} {ks : List FieldKind} {vs : List Int} {p t : Text}
    (hp : Reply tag ks vs p) (htag : Unspaced tag) (hne : tag ≠ []) (hps : p <+: Constants.CrLf ++ t) :
    ∃ q, Packet tag ks vs q ∧ q <+: t := by
  obtain ⟨b, c, q, hb, hc, hq, rfl⟩ := hp
  cases b with
  | cons d b =>
    obtain ⟨r, hr⟩ := hps
    obtain rfl : d = 13 := Option.some.inj (congrArg List.head? hr)
    exact absurd (hb 13 List.mem_cons_self) (by decide)
  | nil =>
    rcases hc with rfl | rfl
    · have hhead := hq.head hne hps fun c hc => by cases Option.some.inj hc; decide
      exact absurd rfl (htag 13 (by rw [← hhead]; rfl)).2
    · exact ⟨q, hq, (List.prefix_append_right_inj Constants.CrLf).1 hps⟩

/-! ## The alternatives -/

theorem APacket.accept_iff {tag : Text} (htag : Literal tag) (cs : List (FieldKind × Int)) (input : Text) :
    Decides (APacket.type tag (contents cs)) input ∧
      (Accepts (APacket.type tag (contents cs)) input ↔
        ∃ p vs, p <+: input ∧ Packet tag (kinds cs) vs p) := by
  obtain ⟨ok, fs, w, r, hr, haccept, hok⟩ := accept_sound htag cs [] input
  obtain ⟨hdecides, haccepts⟩ := decides_of_accept (R := APacket.type tag (contents cs)) haccept
  refine ⟨hdecides, fun h => ?_, ?_⟩
  · obtain ⟨vs, hw, -⟩ := hok (haccepts.1 h)
    exact ⟨w, vs, ⟨r, hr.symm⟩, hw⟩
  · rintro ⟨p, vs, ⟨r', rfl⟩, hp⟩
    exact ⟨_, _, accept_packet htag hp [] r'⟩

theorem Response.accept_iff {tag : Text} (htag : Unspaced tag) (hne : tag ≠ [])
    (cs : List (FieldKind × Int)) (input : Text) :
    Decides (Response.type tag (contents cs)) input ∧
      (Accepts (Response.type tag (contents cs)) input ↔
        ∃ p vs, p <+: input ∧ Reply tag (kinds cs) vs p) := by
  obtain ⟨ok, fs, w, r, hr, haccept, hok⟩ := Response.acceptImpl_sound htag hne cs input
  obtain ⟨hdecides, haccepts⟩ := decides_of_accept (R := Response.type tag (contents cs)) haccept
  refine ⟨hdecides, fun h => ?_, ?_⟩
  · obtain ⟨vs, hw, -⟩ := hok (haccepts.1 h)
    exact ⟨w, vs, ⟨r, hr.symm⟩, hw⟩
  · rintro ⟨p, vs, ⟨r', rfl⟩, hp⟩
    exact ⟨_, _, Response.acceptImpl_reply htag hne hp r'⟩

/-! ## The final result codes -/

section FinalResultCode

variable (cms : NumericEnum CmsError.Code) (cme : NumericEnum CmeError.Code)

/-- `FinalResultCode<>::accept` on a fresh deserializer over `input`. -/
def acceptFinal (value : Variant (FinalResultCode cms cme [])) (input : Text) :
    Option (Bool × Variant (FinalResultCode cms cme []) × Nat) :=
  ResponsePack.accept (FinalResultCode cms cme []) value input 0

/-- The verdict and the value are the same behind a CRLF, and two characters more are taken. -/
def ToleratesCrLf (t : Text) : Prop :=
  ∀ value value', ∃ ok v length ok' v' length',
    acceptFinal cms cme value (Constants.CrLf ++ t) = some (ok, v, length) ∧
      acceptFinal cms cme value' t = some (ok', v', length') ∧
      ok = ok' ∧ (ok = true → v = v' ∧ length = length' + 2)

/-- The text starts with `ERROR`, `+CMS ERROR:` and a declared code, or `+CME ERROR:` and a
declared code, blanks between the parts and CRLF at the end. -/
def StartsWithError (t : Text) : Prop :=
  ∃ p vs, p <+: t ∧ (Packet (text "ERROR") [] vs p ∨
    Packet (text "+CMS ERROR:") [.numeric CmsError.Code cms] vs p ∨
    Packet (text "+CME ERROR:") [.numeric CmeError.Code cme] vs p)

theorem literal_ok : Unspaced (text "OK") ∧ text "OK" ≠ [] :=
  ⟨by unfold Unspaced; decide +kernel, by decide⟩

theorem literal_error : Unspaced (text "ERROR") ∧ text "ERROR" ≠ [] :=
  ⟨by unfold Unspaced; decide +kernel, by decide⟩

theorem literal_cms : Unspaced (text "+CMS ERROR:") ∧ text "+CMS ERROR:" ≠ [] :=
  ⟨by unfold Unspaced; decide +kernel, by decide⟩

theorem literal_cme : Unspaced (text "+CME ERROR:") ∧ text "+CME ERROR:" ≠ [] :=
  ⟨by unfold Unspaced; decide +kernel, by decide⟩

/-- Each alternative ends its trial without an exception, and the three error replies accept
their packets. -/
theorem final_decides (input : Text) : ∀ R ∈ FinalResultCode cms cme [], Decides R input := by
  intro R hR
  simp only [FinalResultCode, List.nil_append, List.mem_cons, List.not_mem_nil, or_false] at hR
  rcases hR with rfl | rfl | rfl | rfl
  · exact (Response.accept_iff literal_ok.1 literal_ok.2 [] input).1
  · exact (APacket.accept_iff (literal_error.1.literal literal_error.2) [] input).1
  · exact (APacket.accept_iff (literal_cms.1.literal literal_cms.2) [(.numeric _ cms, 0)] input).1
  · exact (APacket.accept_iff (literal_cme.1.literal literal_cme.2) [(.numeric _ cme, 0)] input).1

theorem final_accepts_iff (input : Text) :
    (∃ R ∈ FinalResultCode cms cme [], Accepts R input) ↔
      Accepts Ok input ∨ StartsWithError cms cme input := by
  have herror := (APacket.accept_iff (literal_error.1.literal literal_error.2) [] input).2
  have hcms := (APacket.accept_iff (literal_cms.1.literal literal_cms.2) [(.numeric _ cms, 0)] input).2
  have hcme := (APacket.accept_iff (literal_cme.1.literal literal_cme.2) [(.numeric _ cme, 0)] input).2
  simp only [FinalResultCode, List.nil_append, List.exists_mem_cons_iff, List.not_mem_nil, false_and,
    exists_false, or_false]
  refine or_congr Iff.rfl ((or_congr herror (or_congr hcms hcme)).trans ?_)
  unfold StartsWithError
  simp only [and_or_left, exists_or]
  rfl

/-- An error reply starts neither behind a CRLF nor in front of `OK`. -/
theorem StartsWithError.head {t s : Text} (h : StartsWithError cms cme t) (ht : t <+: s)
    (hs : ∀ c ∈ s.head?, c ∉ blanks) : s.head? = some 69 ∨ s.head? = some 43 := by
  obtain ⟨p, vs, hp, h | h | h⟩ := h
  · exact Or.inl (h.head literal_error.2 (hp.trans ht) hs)
  · exact Or.inr (h.head literal_cms.2 (hp.trans ht) hs)
  · exact Or.inr (h.head literal_cme.2 (hp.trans ht) hs)

/-- `OK` is the first alternative: what it takes, the pack takes. -/
theorem acceptFinal_of_ok {input : Text} {obj : Ok.Obj} {length : Nat}
    (h : Ok.accept Ok.init input 0 = some (true, obj, length))
    (value : Variant (FinalResultCode cms cme [])) :
    acceptFinal cms cme value input = some (true, some (.first obj), length) := by
  unfold acceptFinal ResponsePack.accept
  have htry : tryAll (FinalResultCode cms cme []) input 0 = some (some (.first obj), length) :=
    tryAll_of_accepts h 0
  rw [htry]
  rfl

/-- The pack throws nowhere; it accepts `OK` and the error replies. -/
theorem acceptFinal_iff (value : Variant (FinalResultCode cms cme [])) (input : Text) :
    ∃ ok v length, acceptFinal cms cme value input = some (ok, v, length) ∧
      (ok = true ↔ Accepts Ok input ∨ StartsWithError cms cme input) := by
  obtain ⟨v, length, htry, hiff⟩ := tryAll_isSome_iff (final_decides cms cme input) 0
  refine ⟨v.isSome, v.or value, length, ?_, hiff.trans (final_accepts_iff cms cme input)⟩
  unfold acceptFinal ResponsePack.accept
  rw [htry, Option.map_some]

/-- An `OK` is taken with or without a CRLF in front. -/
theorem toleratesCrLf_of_ok {t p : Text} {vs : List Int} (hp : Packet (text "OK") [] vs p)
    (hpt : p <+: t) : ToleratesCrLf cms cme t := by
  obtain ⟨r, rfl⟩ := hpt
  intro value value'
  have hplain : Reply (text "OK") (kinds []) vs p :=
    ⟨[], [], p, Blanks.nil, Or.inl rfl, hp, rfl⟩
  have hled : Reply (text "OK") (kinds []) vs (Constants.CrLf ++ p) :=
    ⟨[], Constants.CrLf, p, Blanks.nil, Or.inr rfl, hp, rfl⟩
  have h1 : Ok.accept Ok.init (Constants.CrLf ++ (p ++ r)) 0 =
      some (true, holding (kinds []) vs, (Constants.CrLf ++ p).length) := by
    rw [← List.append_assoc]
    exact Response.acceptImpl_reply literal_ok.1 literal_ok.2 hled r
  have h2 : Ok.accept Ok.init (p ++ r) 0 = some (true, holding (kinds []) vs, p.length) :=
    Response.acceptImpl_reply literal_ok.1 literal_ok.2 hplain r
  refine ⟨true, some (.first (holding [] vs)), (Constants.CrLf ++ p).length, true,
    some (.first (holding [] vs)), p.length, acceptFinal_of_ok cms cme h1 value,
    acceptFinal_of_ok cms cme h2 value', rfl, fun _ => ⟨rfl, ?_⟩⟩
  rw [List.length_append, Nat.add_comm]
  rfl

/-- Behind a CRLF only an `OK` is accepted. -/
theorem accepts_behind_crLf {t : Text} (value : Variant (FinalResultCode cms cme [])) {v}
    {length : Nat} (h : acceptFinal cms cme value (Constants.CrLf ++ t) = some (true, v, length)) :
    ∃ p vs, p <+: t ∧ Packet (text "OK") [] vs p := by
  obtain ⟨ok, v', length', hfinal, hiff⟩ := acceptFinal_iff cms cme value (Constants.CrLf ++ t)
  rw [h] at hfinal
  cases hfinal
  rcases hiff.1 rfl with hok | herror
  · obtain ⟨p, vs, hp, hreply⟩ := (Response.accept_iff literal_ok.1 literal_ok.2 [] _).2.1 hok
    obtain ⟨q, hq, hqt⟩ := hreply.packet_of_crLf literal_ok.1 literal_ok.2 hp
    exact ⟨q, vs, hqt, hq⟩
  · have hhead := herror.head cms cme (List.prefix_refl _)
      fun c hc => by cases Option.some.inj hc; decide
    rcases hhead with h | h <;> cases h

/-- **The leading CRLF makes a difference exactly in front of an error reply**: on every other
text that starts with neither a blank nor CR, `FinalResultCode<>` behaves the same behind a
CRLF; in front of `ERROR`, `+CMS ERROR:` and `+CME ERROR:` it does not. -/
theorem toleratesCrLf_iff {t : Text} (ht : Unspaced t) :
    ToleratesCrLf cms cme t ↔ ¬ StartsWithError cms cme t := by
  by_cases hok : ∃ p vs, p <+: t ∧ Packet (text "OK") [] vs p
  · obtain ⟨p, vs, hpt, hp⟩ := hok
    refine iff_of_true (toleratesCrLf_of_ok cms cme hp hpt) fun herror => ?_
    have hO := hp.head literal_ok.2 hpt fun c hc => (ht c hc).1
    rcases herror.head cms cme (List.prefix_refl _) (fun c hc => (ht c hc).1) with h | h <;>
      rw [hO] at h <;> cases h
  · have hplain : ¬ Accepts Ok t := by
      intro h
      obtain ⟨p, vs, hp, hreply⟩ := (Response.accept_iff literal_ok.1 literal_ok.2 [] t).2.1 h
      exact hok ⟨p, vs, hp, hreply.packet hp ht⟩
    constructor
    · intro h herror
      obtain ⟨ok, v, length, ok', v', length', hled, hbare, rfl, -⟩ := h none none
      obtain ⟨ok', _, _, hbare', hiff⟩ := acceptFinal_iff cms cme none t
      rw [hbare] at hbare'
      cases hbare'
      rw [hiff.2 (Or.inr herror)] at hled
      exact hok (accepts_behind_crLf cms cme none hled)
    · intro hno value value'
      obtain ⟨ok, v, length, hled, hiff⟩ := acceptFinal_iff cms cme value (Constants.CrLf ++ t)
      obtain ⟨ok', v', length', hbare, hiff'⟩ := acceptFinal_iff cms cme value' t
      obtain rfl : ok = false := Bool.eq_false_iff.2 fun h =>
        hok (accepts_behind_crLf cms cme value (h ▸ hled))
      obtain rfl : ok' = false := Bool.eq_false_iff.2 fun h =>
        (hiff'.1 h).elim hplain hno
      exact ⟨false, v, length, false, v', length', hled, hbare, rfl, fun h => by cases h⟩

end FinalResultCode

/-- The enums of the two error codes. -/
def cmsCode : NumericEnum CmsError.Code := .ofValues CmsError.Code (by decide)

def cmeCode : NumericEnum CmeError.Code := .ofValues CmeError.Code (by decide)

theorem toleratesCrLf_iff_at_ok : ToleratesCrLf cmsCode cmeCode (text "OK\r\n") ↔
    ¬ StartsWithError cmsCode cmeCode (text "OK\r\n") :=
  toleratesCrLf_iff cmsCode cmeCode (by unfold Unspaced; decide +kernel)

/-- `ERROR` and CRLF is accepted, and is not behind a CRLF. -/
theorem error_not_tolerated :
    Unspaced (text "ERROR\r\n") ∧ ¬ ToleratesCrLf cmsCode cmeCode (text "ERROR\r\n") := by
  refine ⟨by unfold Unspaced; decide +kernel, fun h => ?_⟩
  obtain ⟨ok, v, length, ok', v', length', hled, hbare, rfl, -⟩ := h none none
  have hno : (acceptFinal cmsCode cmeCode none (Constants.CrLf ++ text "ERROR\r\n")).map (·.1) =
      some false := by decide +kernel
  have hyes : (acceptFinal cmsCode cmeCode none (text "ERROR\r\n")).map (·.1) = some true := by
    decide +kernel
  rw [hled] at hno
  rw [hbare] at hyes
  simp at hno hyes
  rw [hno] at hyes
  cases hyes

end ATLink
