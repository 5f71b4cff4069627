import CrudeOAuth.Core.Options
import CrudeOAuth.Pam.Lines

/-!
# Options as arguments and as a file

Options are given as arguments of the stack or in a file. The forms have the same
meaning (`parseConfig_fileText`): arguments that are written to a file, in any order of its
lines, give the same record, or an error both times.

Both forms are compared with what the values of each option say about the record
(`InlineOption.Means`): the arguments by an induction on them, a file by the values that the
lookup of a name finds.
-/

namespace CrudeOAuth.Pam

open Rust Rust.Outcome

/-- The options that both forms have. -/
inductive InlineOption
  | userid | grace | iss | jwks
  | trustedAud | trustedAzp | requiredScope | disallowedUsername | allowedAlg | disallowedAlg
  deriving DecidableEq, Repr

namespace InlineOption

/-- The options that are given once. -/
def single : InlineOption → Bool
  | userid | grace | iss | jwks => true
  | _ => false

/-- The key of the option in an argument. -/
def key : InlineOption → String
  | userid => "userid"
  | grace => "grace"
  | iss => "iss"
  | jwks => "jwks"
  | trustedAud => "trusted_aud"
  | trustedAzp => "trusted_azp"
  | requiredScope => "required_scope"
  | disallowedUsername => "disallowed_username"
  | allowedAlg => "allowed_alg"
  | disallowedAlg => "disallowed_alg"

/-- The name of the option in a file, without its number. -/
def name : InlineOption → String
  | userid => "oauthbearer_userid"
  | grace => "oauthbearer_grace"
  | iss => "oauthbearer_trusted_iss"
  | jwks => "oauthbearer_trusted_jwks"
  | trustedAud => "oauthbearer_trusted_aud"
  | trustedAzp => "oauthbearer_trusted_azp"
  | requiredScope => "oauthbearer_required_scope"
  | disallowedUsername => "oauthbearer_disallowed_username"
  | allowedAlg => "oauthbearer_allowed_alg"
  | disallowedAlg => "oauthbearer_disallowed_alg"

/-- The number of an occurrence of the option. -/
def number (o : InlineOption) (k : Nat) : String :=
  match o with
  | userid | grace => ""
  | iss | jwks => "0"
  | _ => toString k

def all : List InlineOption :=
  [userid, grace, iss, jwks, trustedAud, trustedAzp, requiredScope, disallowedUsername, allowedAlg,
    disallowedAlg]

end InlineOption

/-! ## Two forms -/

/-- The options with their values, as arguments of the stack. -/
def arguments (opts : List (InlineOption × String)) : List String :=
  opts.map fun (o, v) => o.key ++ "=" ++ v

/-- The values of an option, in order. -/
def valuesOf (opts : List (InlineOption × String)) (o : InlineOption) : List String :=
  opts.filterMap fun ov => if ov.1 = o then some ov.2 else none

/-- The entries of the file: the occurrences of each option are numbered. -/
def fileEntries (opts : List (InlineOption × String)) : List (String × String) :=
  InlineOption.all.flatMap fun o => (valuesOf opts o).zipIdx.map fun (v, k) => (o.name ++ o.number k, v)

/-- The file with a line for each of the entries. -/
def fileText (entries : List (String × String)) : String :=
  String.join ((entries.map fun (name, v) => name ++ ": " ++ v).map (· ++ "\n"))

/-- Options that can be written to a file. There are no more of them than a `usize` counts. -/
structure Translatable (opts : List (InlineOption × String)) : Prop where
  single : ∀ o, o.single = true → (valuesOf opts o).length ≤ 1
  value : ∀ o v, (o, v) ∈ opts → v ≠ "" ∧ '\n' ∉ v.toList ∧ Trimmed v
  count : opts.length < 2 ^ 64

variable {opts : List (InlineOption × String)} {o o' : InlineOption} {v : String} {l : List String}
  {args mid : PamArgs} {entries : List (String × String)} {path : String}

theorem valuesOf_concat : valuesOf (opts ++ [(o, v)]) o' =
    if o = o' then valuesOf opts o' ++ [v] else valuesOf opts o' := by
  rw [valuesOf, List.filterMap_append]
  split
  · rename_i h
    simp [h, valuesOf]
  · rename_i h
    simp [h, valuesOf]

theorem length_valuesOf_le (opts : List (InlineOption × String)) (o : InlineOption) :
    (valuesOf opts o).length ≤ opts.length := List.length_filterMap_le _ _

theorem mem_fileEntries {name : String} : (name, v) ∈ fileEntries opts ↔
    ∃ (o : InlineOption) (k : Nat), name = o.name ++ o.number k ∧ (valuesOf opts o)[k]? = some v := by
  have hall : ∀ o, o ∈ InlineOption.all := fun o => by cases o <;> decide
  simp only [fileEntries, List.mem_flatMap, hall, true_and, List.mem_map, Prod.mk.injEq, Prod.exists,
    List.mem_zipIdx_iff_getElem?]
  constructor
  · rintro ⟨o, w, k, hk, rfl, rfl⟩
    exact ⟨o, k, rfl, hk⟩
  · rintro ⟨o, k, rfl, hk⟩
    exact ⟨o, v, k, hk, rfl, rfl⟩

/-! ## What the values mean -/

theorem namedAlgorithms_concat {parsed : List Algorithm} {a : Algorithm} :
    namedAlgorithms (parsed ++ [a]) = some (pushAlgorithm ((namedAlgorithms parsed).getD []) a) := by
  rw [namedAlgorithms, if_neg (by simp), distinctAlgorithms_concat, namedAlgorithms]
  split
  · rename_i hnil
    rw [hnil]
    rfl
  · rfl

/-- What the values of the option say about the record. -/
def InlineOption.Means (o : InlineOption) (values : List String) (args : PamArgs) : Prop :=
  match o with
  | userid => args.userid = values.head?.getD "preferred_username"
  | grace => parseI64 (values.head?.getD "3") = .ok args.grace
  | iss => args.iss = values.head?
  | jwks => args.jwks = values.head?
  | trustedAud => args.trustedAud = values
  | trustedAzp => args.trustedAzp = values
  | requiredScope => args.requiredScope = values
  | disallowedUsername => args.disallowedUsernames = values
  | allowedAlg => ∃ parsed, values = parsed.map algorithmName ∧
      args.allowedAlgorithms = namedAlgorithms parsed
  | disallowedAlg => ∃ parsed, values = parsed.map algorithmName ∧
      args.disallowedAlgorithms = distinctAlgorithms parsed

/-- The record is what the options say. -/
structure Says (opts : List (InlineOption × String)) (args : PamArgs) : Prop where
  means : ∀ o : InlineOption, o.Means (valuesOf opts o) args
  onlyFrom : args.onlyFrom = []

/-! ## Arguments -/

/-- An argument changes nothing but what its option says. -/
theorem means_applyOption_of_ne (h : applyOption mid o.key v = .ok args) (hne : o ≠ o') :
    o'.Means l args ↔ o'.Means l mid := by
  cases o with
  | grace =>
    simp only [InlineOption.key, applyOption] at h
    split at h
    · obtain rfl := Outcome.ok.inj h
      cases o' <;> first | exact absurd rfl hne | exact Iff.rfl
    · cases h
  | iss | jwks | allowedAlg | disallowedAlg =>
    simp only [InlineOption.key, applyOption] at h
    obtain ⟨slot, -, h⟩ := bind_eq_ok.1 h
    obtain rfl := Outcome.ok.inj h
    cases o' <;> first | exact absurd rfl hne | exact Iff.rfl
  | userid | trustedAud | trustedAzp | requiredScope | disallowedUsername =>
    obtain rfl := Outcome.ok.inj h
    cases o' <;> first | exact absurd rfl hne | exact Iff.rfl

/-- An argument says one value more of its option. -/
theorem means_applyOption (hmid : o.Means l mid) (hsingle : o.single = true → l = [])
    (h : applyOption mid o.key v = .ok args) : o.Means (l ++ [v]) args := by
  cases o with
  | userid =>
    obtain rfl := Outcome.ok.inj h
    rw [hsingle rfl]
    rfl
  | grace =>
    simp only [InlineOption.key, applyOption] at h
    split at h
    · rename_i grace hgrace
      obtain rfl := Outcome.ok.inj h
      rw [hsingle rfl]
      exact hgrace
    · cases h
  | iss | jwks =>
    simp only [InlineOption.key, applyOption] at h
    obtain ⟨slot, hslot, h⟩ := bind_eq_ok.1 h
    obtain rfl := Outcome.ok.inj h
    unfold setOnce at hslot
    split at hslot
    · cases hslot
    · obtain rfl := Outcome.ok.inj hslot
      rw [hsingle rfl]
      rfl
  | trustedAud | trustedAzp | requiredScope | disallowedUsername =>
    obtain rfl := Outcome.ok.inj h
    exact congrArg (· ++ [v]) hmid
  | allowedAlg =>
    simp only [InlineOption.key, applyOption, addAlgorithm, bind_eq_ok, okOr_eq_ok,
      parseAlgorithmName_eq_some] at h
    obtain ⟨slot, ⟨a, rfl, hslot⟩, h⟩ := h
    obtain rfl := Outcome.ok.inj hslot
    obtain rfl := Outcome.ok.inj h
    obtain ⟨parsed, rfl, halgs⟩ := hmid
    refine ⟨parsed ++ [a], by simp, ?_⟩
    rw [namedAlgorithms_concat, ← halgs]
  | disallowedAlg =>
    simp only [InlineOption.key, applyOption, addDisallowedAlgorithm, bind_eq_ok, okOr_eq_ok,
      parseAlgorithmName_eq_some] at h
    obtain ⟨slot, ⟨a, rfl, hslot⟩, h⟩ := h
    obtain rfl := Outcome.ok.inj hslot
    obtain rfl := Outcome.ok.inj h
    obtain ⟨parsed, rfl, halgs⟩ := hmid
    refine ⟨parsed ++ [a], by simp, ?_⟩
    rw [distinctAlgorithms_concat, ← halgs]

/-- Names that end with a value are the names of algorithms that end with that of the value. -/
theorem exists_concat_of_map {parsed : List Algorithm} (h : l ++ [v] = parsed.map algorithmName) :
    ∃ before a, parsed = before ++ [a] ∧ l = before.map algorithmName ∧ v = algorithmName a := by
  obtain ⟨before, after, rfl, hl, hv⟩ := List.map_eq_append_iff.1 h.symm
  obtain ⟨a, rfl, ha⟩ := List.map_eq_singleton_iff.1 hv
  exact ⟨before, a, rfl, hl.symm, ha.symm⟩

/-- What is said with an argument is what the argument makes of what is said without it. -/
theorem exists_applyOption (h : o.Means (l ++ [v]) args) (hsingle : o.single = true → l = []) :
    ∃ mid, o.Means l mid ∧ applyOption mid o.key v = .ok args := by
  cases o with
  | userid =>
    rw [hsingle rfl] at h ⊢
    obtain rfl : args.userid = v := h
    exact ⟨{ args with userid := "preferred_username" }, rfl, rfl⟩
  | grace =>
    rw [hsingle rfl] at h ⊢
    have hgrace : parseI64 v = .ok args.grace := h
    have hdefault : parseI64 "3" = .ok 3 := by decide
    refine ⟨{ args with grace := 3 }, hdefault, ?_⟩
    simp only [InlineOption.key, applyOption, hgrace]
  | iss =>
    rw [hsingle rfl] at h ⊢
    have hiss : args.iss = some v := h
    refine ⟨{ args with iss := none }, rfl, ?_⟩
    simp [InlineOption.key, applyOption, setOnce, ← hiss]
  | jwks =>
    rw [hsingle rfl] at h ⊢
    have hjwks : args.jwks = some v := h
    refine ⟨{ args with jwks := none }, rfl, ?_⟩
    simp [InlineOption.key, applyOption, setOnce, ← hjwks]
  | trustedAud =>
    have haud : args.trustedAud = l ++ [v] := h
    refine ⟨{ args with trustedAud := l }, rfl, ?_⟩
    simp only [InlineOption.key, applyOption, ← haud]
  | trustedAzp =>
    have hazp : args.trustedAzp = l ++ [v] := h
    refine ⟨{ args with trustedAzp := l }, rfl, ?_⟩
    simp only [InlineOption.key, applyOption, ← hazp]
  | requiredScope =>
    have hscope : args.requiredScope = l ++ [v] := h
    refine ⟨{ args with requiredScope := l }, rfl, ?_⟩
    simp only [InlineOption.key, applyOption, ← hscope]
  | disallowedUsername =>
    have husername : args.disallowedUsernames = l ++ [v] := h
    refine ⟨{ args with disallowedUsernames := l }, rfl, ?_⟩
    simp only [InlineOption.key, applyOption, ← husername]
  | allowedAlg =>
    obtain ⟨parsed, hl, hargs⟩ := h
    obtain ⟨before, a, rfl, rfl, rfl⟩ := exists_concat_of_map hl
    have hparse : parseAlgorithmName (algorithmName a) = some a := parseAlgorithmName_eq_some.2 rfl
    rw [namedAlgorithms_concat] at hargs
    refine ⟨{ args with allowedAlgorithms := namedAlgorithms before }, ⟨before, rfl, rfl⟩, ?_⟩
    simp only [InlineOption.key, applyOption, addAlgorithm, hparse, okOr_some, ok_bind, ← hargs]
  | disallowedAlg =>
    obtain ⟨parsed, hl, hargs⟩ := h
    obtain ⟨before, a, rfl, rfl, rfl⟩ := exists_concat_of_map hl
    have hparse : parseAlgorithmName (algorithmName a) = some a := parseAlgorithmName_eq_some.2 rfl
    rw [distinctAlgorithms_concat] at hargs
    refine ⟨{ args with disallowedAlgorithms := distinctAlgorithms before }, ⟨before, rfl, rfl⟩, ?_⟩
    simp only [InlineOption.key, applyOption, addDisallowedAlgorithm, hparse, okOr_some, ok_bind, ← hargs]

theorem applyArg_option : applyArg mid (o.key ++ "=" ++ v) = applyOption mid o.key v := by
  have hkey : '=' ∉ o.key.toList := by cases o <;> decide
  have hsplit : splitOnce '=' (o.key ++ "=" ++ v) = some (o.key, v) := splitOnce_append hkey
  rw [applyArg, hsplit]

theorem applyOption_key_onlyFrom (h : applyOption mid o.key v = .ok args) : args.onlyFrom = mid.onlyFrom := by
  have hkey : o.key ≠ "only_from" := by cases o <;> decide
  rw [applyOption_onlyFrom h, if_neg hkey, List.append_nil]

theorem says_nil : Says [] args ↔ args = defaultArgs := by
  have hdefault : parseI64 "3" = .ok 3 := by decide
  constructor
  · intro h
    have hgrace : parseI64 "3" = .ok args.grace := h.means .grace
    obtain ⟨allowed, hallowed, hallow⟩ := h.means .allowedAlg
    obtain ⟨disallowed, hdisallowed, hdeny⟩ := h.means .disallowedAlg
    obtain rfl := List.map_eq_nil_iff.1 hallowed.symm
    obtain rfl := List.map_eq_nil_iff.1 hdisallowed.symm
    rw [hdefault] at hgrace
    have huserid := h.means .userid
    have hiss := h.means .iss
    have hjwks := h.means .jwks
    have haud := h.means .trustedAud
    have hazp := h.means .trustedAzp
    have hscope := h.means .requiredScope
    have husername := h.means .disallowedUsername
    have honly := h.onlyFrom
    cases args
    simp_all [InlineOption.Means, valuesOf, defaultArgs, namedAlgorithms, distinctAlgorithms]
  · rintro rfl
    refine ⟨fun o => ?_, rfl⟩
    cases o with
    | grace => exact hdefault
    | allowedAlg | disallowedAlg => exact ⟨[], rfl, rfl⟩
    | _ => rfl

/-- With an argument more, the options say what the argument makes of what they say without. -/
theorem says_concat (hsingle : o.single = true → valuesOf opts o = []) :
    Says (opts ++ [(o, v)]) args ↔ ∃ mid, Says opts mid ∧ applyOption mid o.key v = .ok args := by
  constructor
  · intro h
    have hmeans := h.means o
    rw [valuesOf_concat, if_pos rfl] at hmeans
    obtain ⟨mid, hmid, happly⟩ := exists_applyOption hmeans hsingle
    refine ⟨mid, ⟨fun o' => ?_, (applyOption_key_onlyFrom happly).symm.trans h.onlyFrom⟩, happly⟩
    by_cases ho : o = o'
    · exact ho ▸ hmid
    · have hother := h.means o'
      rw [valuesOf_concat, if_neg ho] at hother
      exact (means_applyOption_of_ne happly ho).1 hother
  · rintro ⟨mid, hmid, happly⟩
    refine ⟨fun o' => ?_, (applyOption_key_onlyFrom happly).trans hmid.onlyFrom⟩
    rw [valuesOf_concat]
    by_cases ho : o = o'
    · subst ho
      rw [if_pos rfl]
      exact means_applyOption (hmid.means o) hsingle happly
    · rw [if_neg ho]
      exact (means_applyOption_of_ne happly ho).2 (hmid.means o')

/-- The arguments are parsed to what they say. -/
theorem parseInlineArgs_eq_ok (hsingle : ∀ o, o.single = true → (valuesOf opts o).length ≤ 1) :
    parseInlineArgs (arguments opts) = .ok args ↔ Says opts args := by
  induction opts using List.reverseRecOn generalizing args with
  | nil =>
    rw [says_nil, eq_comm]
    exact ⟨Outcome.ok.inj, fun h => h ▸ rfl⟩
  | append_singleton opts ov ih =>
    obtain ⟨o, v⟩ := ov
    have hfirst : ∀ o', o'.single = true → (valuesOf opts o').length ≤ 1 := by
      intro o' ho'
      have := hsingle o' ho'
      rw [valuesOf_concat] at this
      split at this
      · rw [List.length_append] at this
        omega
      · exact this
    have hnil : o.single = true → valuesOf opts o = [] := by
      intro ho
      have := hsingle o ho
      rw [valuesOf_concat, if_pos rfl] at this
      simpa using this
    rw [says_concat hnil, parseInlineArgs, arguments, List.map_append, List.foldlM_append, bind_eq_ok]
    refine exists_congr fun mid => and_congr (ih hfirst) ?_
    rw [List.map_singleton, List.foldlM_cons, applyArg_option]
    simp only [List.foldlM_nil, bind_pure]

/-! ## The entries of the file -/

/-- A character of the names of options in a file. -/
def isNameChar (c : Char) : Bool := c.isLower || c.isDigit || c == '_'

/-- Such a character is one of a key in lowercase, and means nothing to the parser. -/
structure PlainChar (c : Char) : Prop where
  space : isWhitespace c = false
  newline : c ≠ '\n'
  key : isKeyChar c = true
  lower : c.toLower = c

theorem plainChar_of_isNameChar {c : Char} (h : isNameChar c = true) : PlainChar c := by
  have hall : ∀ n : Fin 128, isNameChar (Char.ofNat n) = true →
      isWhitespace (Char.ofNat n) = false ∧ Char.ofNat n ≠ '\n' ∧ isKeyChar (Char.ofNat n) = true ∧
        (Char.ofNat n).toLower = Char.ofNat n := by
    decide
  have hlt : c.toNat < 128 := by
    unfold isNameChar at h
    rw [Bool.or_eq_true, Bool.or_eq_true, beq_iff_eq] at h
    rcases h with (h | h) | rfl
    · have hle : c.val ≤ 'z'.val := of_decide_eq_true (Bool.and_eq_true_iff.1 h).2
      exact lt_of_le_of_lt (UInt32.le_iff_toNat_le.1 hle) (by decide)
    · have hle : c.val ≤ '9'.val := of_decide_eq_true (Bool.and_eq_true_iff.1 h).2
      exact lt_of_le_of_lt (UInt32.le_iff_toNat_le.1 hle) (by decide)
    · decide
  have hplain := hall ⟨c.toNat, hlt⟩
  simp only [Char.ofNat_toNat] at hplain
  obtain ⟨hspace, hnewline, hkey, hlower⟩ := hplain h
  exact ⟨hspace, hnewline, hkey, hlower⟩

/-- An entry that a line can be written for. -/
structure Writable (name v : String) : Prop where
  plain : ∀ c ∈ name.toList, PlainChar c
  name_ne : name ≠ ""
  value_ne : v ≠ ""
  newline : '\n' ∉ v.toList
  trimmed : Trimmed v

theorem Writable.hasKey {name : String} (h : Writable name v) : HasKey (name ++ ": " ++ v) name (" " ++ v) where
  split := by
    have hassoc : name ++ ": " ++ v = name ++ ":" ++ (" " ++ v) := by
      rw [← String.toList_inj]
      simp
    obtain ⟨c, cs, hcs⟩ := List.exists_cons_of_ne_nil (fun hnil => h.name_ne (String.toList_eq_nil_iff.1 hnil))
    have hc : PlainChar c := h.plain c (hcs ▸ List.mem_cons_self)
    have htoList : (name ++ ": " ++ v).toList = c :: (cs ++ ": ".toList ++ v.toList) := by
      rw [String.toList_append, String.toList_append, hcs]
      rfl
    rw [trimStart, htoList, List.dropWhile_cons_of_neg (by simp [hc.space]), ← htoList, String.ofList_toList,
      hassoc]
  key c hc := (h.plain c hc).key
  value := by
    obtain ⟨c, cs, hcs⟩ := List.exists_cons_of_ne_nil (fun hnil => h.value_ne (String.toList_eq_nil_iff.1 hnil))
    exact ⟨c, by simp [hcs], h.trimmed.1 c (by rw [hcs]; rfl)⟩

/-- The line of an entry has the entry. -/
theorem Writable.entryOf_eq {name : String} (h : Writable name v) :
    entryOf (name ++ ": " ++ v) = some (name, v) := by
  have hvalue : trim (" " ++ v) = v := by
    have hspace : trim (" " ++ v) = trim v := by
      rw [trim, String.toList_append]
      rfl
    rw [hspace, trim_eq_self.2 h.trimmed]
  have hlower : toAsciiLowercase name = name := by
    rw [toAsciiLowercase, List.map_congr_left fun c hc => (h.plain c hc).lower, List.map_id',
      String.ofList_toList]
  rw [entryOf_eq_some h.hasKey, hvalue, hlower]

/-- The file is parsed to its entries. -/
theorem parseLines_fileText (h : ∀ name v, (name, v) ∈ entries → Writable name v) :
    parseLines (fileText entries) path = .ok entries := by
  have hlines : lines (fileText entries) = entries.map fun (name, v) => name ++ ": " ++ v := by
    refine lines_join fun l hl => ?_
    obtain ⟨⟨name, v⟩, hmem, rfl⟩ := List.mem_map.1 hl
    have hentry := h name v hmem
    have hlast : (name ++ ": " ++ v).toList.getLast? = v.toList.getLast? := by
      obtain ⟨c, hc⟩ := Option.ne_none_iff_exists'.1
        (fun hnone => hentry.value_ne (String.toList_eq_nil_iff.1 (List.getLast?_eq_none_iff.1 hnone)))
      rw [String.toList_append, List.getLast?_append, hc]
      rfl
    refine ⟨?_, fun hr => ?_⟩
    · rw [String.toList_append, String.toList_append, List.mem_append, List.mem_append]
      rintro ((hm | hm) | hm)
      · exact (hentry.plain _ hm).newline rfl
      · exact absurd hm (by decide)
      · exact hentry.newline hm
    · have hspace := hentry.trimmed.2 '\r' (hlast ▸ hr)
      exact absurd hspace (by decide)
  rw [parseLines_eq_ok, hlines, List.filterMap_map]
  refine ⟨fun line hline => ?_, ?_⟩
  · obtain ⟨⟨name, v⟩, hmem, rfl⟩ := List.mem_map.1 hline
    exact .inr ⟨_, _, (h name v hmem).hasKey⟩
  · have hentries : entries.filterMap (entryOf ∘ fun (name, v) => name ++ ": " ++ v) = entries.filterMap some := by
      refine List.filterMap_congr fun entry hentry => ?_
      obtain ⟨name, v⟩ := entry
      exact (h name v hentry).entryOf_eq
    rw [hentries, List.filterMap_some]

/-! ## The names of the file -/

theorem number_isDigit (o : InlineOption) (k : Nat) : ∀ c ∈ (o.number k).toList, c.isDigit = true := by
  cases o with
  | userid | grace => exact fun c hc => absurd hc List.not_mem_nil
  | iss | jwks =>
    have hzero : "0".toList.all Char.isDigit = true := by decide
    exact List.all_eq_true.1 hzero
  | _ => exact isDigit_of_mem_toString

/-- The options that are repeated have their occurrences counted. -/
theorem number_eq_toString (hsingle : o.single = false) (k : Nat) : o.number k = toString k := by
  cases o <;> first | rfl | cases hsingle

/-- A name and a number are told apart: no name ends in a digit. -/
theorem name_append_inj {s s' : String} (hs : ∀ c ∈ s.toList, c.isDigit = true)
    (hs' : ∀ c ∈ s'.toList, c.isDigit = true) (h : o.name ++ s = o'.name ++ s') : o = o' ∧ s = s' := by
  have hstems : stem o.name = stem o'.name := by rw [← stem_append hs, h, stem_append hs']
  have ho : o = o' := by cases o <;> cases o' <;> first | rfl | exact absurd hstems (by decide)
  subst ho
  refine ⟨rfl, ?_⟩
  rw [← String.toList_inj, String.toList_append, String.toList_append, List.append_cancel_left_eq,
    String.toList_inj] at h
  exact h

/-! ## What the file says -/

/-- A name is looked up in the entries of the file as in the values. -/
theorem lookup_eq_of_mem {name : String} {w : Option String} (h : ∀ v, (name, v) ∈ entries ↔ w = some v) :
    lookupEntry entries name = .ok w := by
  refine congrArg Except.ok ?_
  cases hlookup : entries.lookup name with
  | none =>
    cases w with
    | none => rfl
    | some v => simpa using List.lookup_eq_none_iff.1 hlookup (name, v) ((h v).2 rfl)
  | some v =>
    obtain ⟨before, after, rfl, -⟩ := List.lookup_eq_some_iff.1 hlookup
    exact ((h v).1 (List.mem_append_right _ List.mem_cons_self)).symm

theorem mem_entries (hentries : entries.Perm (fileEntries opts)) {s : String}
    (hs : ∀ c ∈ s.toList, c.isDigit = true) : (o.name ++ s, v) ∈ entries ↔
      ∃ k : Nat, s = o.number k ∧ (valuesOf opts o)[k]? = some v := by
  rw [hentries.mem_iff, mem_fileEntries]
  constructor
  · rintro ⟨o', k, hname, hk⟩
    obtain ⟨rfl, rfl⟩ := name_append_inj hs (number_isDigit o' k) hname
    exact ⟨k, rfl, hk⟩
  · rintro ⟨k, rfl, hk⟩
    exact ⟨o, k, rfl, hk⟩

theorem value_ne (hopts : Translatable opts) (hv : v ∈ valuesOf opts o) : v ≠ "" := by
  obtain ⟨⟨o', v'⟩, hmem, h⟩ := List.mem_filterMap.1 hv
  split at h
  · obtain rfl := Option.some.inj h
    exact (hopts.value o' v' hmem).1
  · cases h

section Lookup

variable (hentries : entries.Perm (fileEntries opts))
include hentries

/-- An option that is given once is found under its only name. -/
theorem lookup_single (hlen : (valuesOf opts o).length ≤ 1) :
    lookupEntry entries (o.name ++ o.number 0) = .ok (valuesOf opts o).head? := by
  refine lookup_eq_of_mem fun v => ?_
  rw [mem_entries hentries (number_isDigit o 0)]
  constructor
  · rintro ⟨k, -, hk⟩
    obtain rfl : k = 0 := by
      have := (List.getElem?_eq_some_iff.1 hk).1
      omega
    rw [List.head?_eq_getElem?, hk]
  · intro hv
    exact ⟨0, rfl, List.head?_eq_getElem? ▸ hv⟩

/-- An option that is repeated is found under its numbers. -/
theorem lookup_number (hsingle : o.single = false) (k : Nat) :
    lookupEntry entries (o.name ++ toString k) = .ok (valuesOf opts o)[k]? := by
  refine lookup_eq_of_mem fun v => ?_
  rw [mem_entries hentries (isDigit_of_mem_toString)]
  constructor
  · rintro ⟨k', hk', hv⟩
    rw [number_eq_toString hsingle] at hk'
    exact toString_inj hk' ▸ hv
  · exact fun hv => ⟨k, (number_eq_toString hsingle k).symm, hv⟩

theorem lookup_name (hsingle : o.single = false) : lookupEntry entries o.name = .ok none := by
  have hname : o.name = o.name ++ "" := String.append_empty.symm
  rw [hname]
  refine lookup_eq_of_mem fun v => ?_
  rw [mem_entries hentries (by simp)]
  refine iff_of_false ?_ (by simp)
  rintro ⟨k, hk, -⟩
  rw [number_eq_toString hsingle] at hk
  exact Nat.repr_ne_empty hk.symm

variable (hopts : Translatable opts) {values : List String}
include hopts

theorem numbered_iff (hsingle : o.single = false) :
    Numbered (lookupEntry entries) o.name values ↔ values = valuesOf opts o := by
  have hvalues : Numbered (lookupEntry entries) o.name (valuesOf opts o) := by
    refine ⟨fun k v hk => ⟨?_, ?_⟩, ?_, (length_valuesOf_le opts o).trans_lt hopts.count⟩
    · rw [lookup_number hentries hsingle, hk]
    · exact value_ne hopts (List.mem_of_getElem? hk)
    · rw [lookup_number hentries hsingle, List.getElem?_eq_none le_rfl]
  constructor
  · intro h
    exact Outcome.ok.inj ((getIndexed_eq_ok.2 h).symm.trans (getIndexed_eq_ok.2 hvalues))
  · rintro rfl
    exact hvalues

theorem listed_iff (hsingle : o.single = false) :
    Listed (lookupEntry entries) o.name values ↔ values = valuesOf opts o := by
  constructor
  · intro h
    cases h with
    | numbered h hne => exact (numbered_iff hentries hopts hsingle).1 h
    | words h htext =>
      rw [lookup_name hentries hsingle] at htext
      cases htext
    | unset h hunset => exact (numbered_iff hentries hopts hsingle).1 h
  · rintro rfl
    by_cases hnil : valuesOf opts o = []
    · have hnumbered := (numbered_iff hentries hopts hsingle).2 rfl
      rw [hnil] at hnumbered ⊢
      exact .unset hnumbered (lookup_name hentries hsingle)
    · exact .numbered ((numbered_iff hentries hopts hsingle).2 rfl) hnil

end Lookup

section File

variable (hopts : Translatable opts) (hentries : entries.Perm (fileEntries opts))
include hopts hentries

theorem writable_of_mem {name : String} (h : (name, v) ∈ entries) : Writable name v := by
  obtain ⟨o, k, rfl, hv⟩ := mem_fileEntries.1 (hentries.mem_iff.1 h)
  obtain ⟨⟨o', v'⟩, hmem, hv'⟩ := List.mem_filterMap.1 (List.mem_of_getElem? hv)
  split at hv'
  · obtain rfl := Option.some.inj hv'
    obtain ⟨hne, hnewline, htrimmed⟩ := hopts.value o' v' hmem
    refine ⟨fun c hc => plainChar_of_isNameChar ?_, ?_, hne, hnewline, htrimmed⟩
    · have hname : o.name.toList.all isNameChar = true := by cases o <;> decide
      rw [String.toList_append, List.mem_append] at hc
      rcases hc with hc | hc
      · exact List.all_eq_true.1 hname c hc
      · rw [isNameChar, number_isDigit o k c hc, Bool.or_true, Bool.true_or]
    · have hname : o.name ≠ "" := by cases o <;> decide
      exact fun hempty => hname (String.append_eq_empty_iff.1 hempty).1
  · cases hv'

/-- What is read of the file is what the options say. -/
theorem reads_iff {options : PolicyOptions} :
    ReadsAllowed (lookupEntry entries) options.allowedAlgorithms ∧ ReadsRest (lookupEntry entries) options ↔
      Says opts (.ofOptions options) := by
  have hfilter : ∀ o, (valuesOf opts o).head?.filter (· ≠ "") = (valuesOf opts o).head? := by
    intro o
    cases hhead : (valuesOf opts o).head? with
    | none => rfl
    | some v => simp [value_ne hopts (List.mem_of_mem_head? hhead)]
  have huserid : lookupEntry entries "oauthbearer_userid" = .ok (valuesOf opts .userid).head? :=
    lookup_single hentries (hopts.single .userid rfl)
  have hgrace : lookupEntry entries "oauthbearer_grace" = .ok (valuesOf opts .grace).head? :=
    lookup_single hentries (hopts.single .grace rfl)
  have hiss : lookupEntry entries "oauthbearer_trusted_iss0" = .ok (valuesOf opts .iss).head? :=
    lookup_single hentries (hopts.single .iss rfl)
  have hjwks : lookupEntry entries "oauthbearer_trusted_jwks0" = .ok (valuesOf opts .jwks).head? :=
    lookup_single hentries (hopts.single .jwks rfl)
  constructor
  · rintro ⟨⟨parsed, hallowed, halgs⟩, hrest⟩
    refine ⟨fun o => ?_, rfl⟩
    cases o with
    | userid =>
      obtain ⟨v, hv, h⟩ := hrest.userid
      obtain rfl := Except.ok.inj (huserid.symm.trans hv)
      rw [hfilter] at h
      exact h
    | grace =>
      obtain ⟨v, hv, h⟩ := hrest.grace
      obtain rfl := Except.ok.inj (hgrace.symm.trans hv)
      exact h
    | iss =>
      obtain ⟨v, hv, h⟩ := hrest.iss
      obtain rfl := Except.ok.inj (hiss.symm.trans hv)
      exact h.trans (hfilter _)
    | jwks =>
      obtain ⟨v, hv, h⟩ := hrest.jwks
      obtain rfl := Except.ok.inj (hjwks.symm.trans hv)
      exact h.trans (hfilter _)
    | trustedAud => exact (numbered_iff hentries hopts (o := .trustedAud) rfl).1 hrest.aud
    | trustedAzp => exact (numbered_iff hentries hopts (o := .trustedAzp) rfl).1 hrest.azp
    | requiredScope => exact (numbered_iff hentries hopts (o := .requiredScope) rfl).1 hrest.scope
    | disallowedUsername => exact (listed_iff hentries hopts (o := .disallowedUsername) rfl).1 hrest.username
    | allowedAlg =>
      exact ⟨parsed, ((listed_iff hentries hopts (o := .allowedAlg) rfl).1 hallowed).symm, halgs⟩
    | disallowedAlg =>
      obtain ⟨parsed, hlisted, h⟩ := hrest.disallowed
      exact ⟨parsed, ((listed_iff hentries hopts (o := .disallowedAlg) rfl).1 hlisted).symm, h⟩
  · intro h
    obtain ⟨allowed, hallowed, halgs⟩ := h.means .allowedAlg
    obtain ⟨disallowed, hdisallowed, hdis⟩ := h.means .disallowedAlg
    exact ⟨⟨allowed, (listed_iff hentries hopts (o := .allowedAlg) rfl).2 hallowed.symm, halgs⟩,
      { userid := ⟨_, huserid, (hfilter _).symm ▸ h.means .userid⟩
        grace := ⟨_, hgrace, h.means .grace⟩
        iss := ⟨_, hiss, (hfilter _).symm ▸ h.means .iss⟩
        jwks := ⟨_, hjwks, (hfilter _).symm ▸ h.means .jwks⟩
        aud := (numbered_iff hentries hopts (o := .trustedAud) rfl).2 (h.means .trustedAud)
        azp := (numbered_iff hentries hopts (o := .trustedAzp) rfl).2 (h.means .trustedAzp)
        scope := (numbered_iff hentries hopts (o := .requiredScope) rfl).2 (h.means .requiredScope)
        username := (listed_iff hentries hopts (o := .disallowedUsername) rfl).2 (h.means .disallowedUsername)
        disallowed := ⟨disallowed,
          (listed_iff hentries hopts (o := .disallowedAlg) rfl).2 hdisallowed.symm, hdis⟩ }⟩

theorem parseConfig_eq_ok_iff_says : parseConfig (fileText entries) path = .ok args ↔ Says opts args := by
  have hlines : parseLines (fileText entries) path = .ok entries :=
    parseLines_fileText fun name v => writable_of_mem hopts hentries
  rw [parseConfig_eq_ok hlines]
  constructor
  · rintro ⟨options, hread, rfl⟩
    exact (reads_iff hopts hentries).1 (PolicyOptions.read_eq_ok.1 hread)
  · intro h
    obtain ⟨options, rfl⟩ : ∃ options, args = .ofOptions options := by
      refine ⟨⟨args.userid, args.grace, args.iss, args.jwks, args.trustedAud, args.trustedAzp,
        args.requiredScope, args.disallowedUsernames, args.allowedAlgorithms, args.disallowedAlgorithms⟩, ?_⟩
      rw [PamArgs.ofOptions, ← h.onlyFrom]
    exact ⟨options, PolicyOptions.read_eq_ok.2 ((reads_iff hopts hentries).2 h), rfl⟩

theorem parseConfig_ne_panic : parseConfig (fileText entries) path ≠ .panic := by
  have hlines : parseLines (fileText entries) path = .ok entries :=
    parseLines_fileText fun name v => writable_of_mem hopts hentries
  have hunset : ∀ o : InlineOption, o.single = false →
      ∃ i < 2 ^ 64, lookupEntry entries (o.name ++ toString i) = .ok none := by
    intro o ho
    refine ⟨_, (length_valuesOf_le opts o).trans_lt hopts.count, ?_⟩
    rw [lookup_number hentries ho, List.getElem?_eq_none le_rfl]
  have hread : PolicyOptions.read (lookupEntry entries) ≠ .panic := by
    refine PolicyOptions.read_ne_panic ?_
    simp only [numberedOptions, List.forall_mem_cons]
    exact ⟨hunset .allowedAlg rfl, hunset .disallowedAlg rfl, hunset .trustedAud rfl, hunset .trustedAzp rfl,
      hunset .requiredScope rfl, hunset .disallowedUsername rfl, by simp⟩
  rw [parseConfig, hlines, ok_bind]
  split
  · simp
  · simp
  · rename_i hpanic
    exact absurd hpanic hread

end File

/-! ## Both forms -/

theorem applyOption_ne_panic {key : String} : applyOption mid key v ≠ .panic := by
  have hset : ∀ slot name, setOnce slot v name ≠ .panic := by
    intro slot name
    unfold setOnce
    split <;> simp
  unfold applyOption
  split
  case h_2 => split <;> simp
  case h_3 | h_4 => exact bind_ne_panic (hset _ _) fun _ _ => by simp
  case h_10 | h_11 =>
    exact bind_ne_panic (bind_ne_panic (okOr_ne_panic _ _) fun _ _ => by simp) fun _ _ => by simp
  all_goals simp

theorem applyArg_ne_panic {arg : String} : applyArg mid arg ≠ .panic := by
  unfold applyArg
  split
  · exact applyOption_ne_panic
  · simp

theorem parseInlineArgs_ne_panic {raw : List String} : parseInlineArgs raw ≠ .panic :=
  foldlM_ne_panic (fun _ _ => applyArg_ne_panic) _ _

/-- Arguments that are written to a file, in any order of its lines, give the same record, or
    both forms are refused. -/
theorem parseConfig_fileText (hopts : Translatable opts) (hentries : entries.Perm (fileEntries opts)) :
    (∃ args, parseInlineArgs (arguments opts) = .ok args ∧ parseConfig (fileText entries) path = .ok args) ∨
      (∃ e, parseInlineArgs (arguments opts) = .err e) ∧ ∃ e, parseConfig (fileText entries) path = .err e := by
  have hfile : ∀ args, parseConfig (fileText entries) path = .ok args ↔ Says opts args :=
    fun args => parseConfig_eq_ok_iff_says hopts hentries
  cases hinline : parseInlineArgs (arguments opts) with
  | ok args =>
    exact .inl ⟨args, rfl, (hfile args).2 ((parseInlineArgs_eq_ok hopts.single).1 hinline)⟩
  | err e =>
    refine .inr ⟨⟨e, rfl⟩, ?_⟩
    cases hconfig : parseConfig (fileText entries) path with
    | ok args =>
      rw [(parseInlineArgs_eq_ok hopts.single).2 ((hfile args).1 hconfig)] at hinline
      cases hinline
    | err e' => exact ⟨e', rfl⟩
    | panic => exact absurd hconfig (parseConfig_ne_panic hopts hentries)
  | panic => exact absurd hinline parseInlineArgs_ne_panic

/-- Options with a repeated algorithm, and an issuer that has separators in it. -/
def Fixture.options : List (InlineOption × String) :=
  [(.allowedAlg, "RS256"), (.iss, "https://issuer/#a=b:c"), (.allowedAlg, "ES256"), (.allowedAlg, "RS256")]

theorem parseConfig_fileText_fixture :
    (∃ args, parseInlineArgs (arguments Fixture.options) = .ok args ∧
        parseConfig (fileText (fileEntries Fixture.options).reverse) "oauth.conf" = .ok args) ∨
      (∃ e, parseInlineArgs (arguments Fixture.options) = .err e) ∧
        ∃ e, parseConfig (fileText (fileEntries Fixture.options).reverse) "oauth.conf" = .err e := by
  refine parseConfig_fileText ⟨?_, ?_, by decide⟩ (List.reverse_perm _)
  · intro o ho
    cases o with
    | userid | grace | iss | jwks => decide
    | _ => cases ho
  · intro o v h
    have hvalues : ∀ ov ∈ Fixture.options, ov.2 ≠ "" ∧ '\n' ∉ ov.2.toList ∧ trim ov.2 = ov.2 := by decide
    obtain ⟨hne, hnewline, htrim⟩ := hvalues _ h
    exact ⟨hne, hnewline, trim_eq_self.1 htrim⟩

end CrudeOAuth.Pam
