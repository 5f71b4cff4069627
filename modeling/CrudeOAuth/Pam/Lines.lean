import CrudeOAuth.Pam.Args
import Mathlib.Logic.Relation

/-!
# The lines of a file

Every line of a file is a comment, or has a key and a value (`WellFormed`); otherwise the
file is refused. Of the lines with one key, in any case of its letters, only the first
counts: what is read of a file is what is read of these values (`parseConfig_firstValue`),
and no `Edit` that leaves them as they are changes anything.
-/

namespace CrudeOAuth.Pam

open Rust Rust.Outcome

/-- A character of a key. -/
def isKeyChar (c : Char) : Bool := isAsciiAlphanumeric c || c == '-' || c == '_'

/-- The line is blank, or a comment. -/
def IsComment (line : String) : Prop :=
  trimStart line = "" ∨ ∃ rest, trimStart line = "#" ++ rest

/-- The line is split at its first colon, into a key and a value that is not all whitespace. -/
structure HasKey (line key rest : String) : Prop where
  split : trimStart line = key ++ ":" ++ rest
  key : ∀ c ∈ key.toList, isKeyChar c = true
  value : ∃ c ∈ rest.toList, isWhitespace c = false

def WellFormed (line : String) : Prop := IsComment line ∨ ∃ key rest, HasKey line key rest

/-- The key of a line, in lowercase, and its value, if it is no comment. -/
def entryOf (line : String) : Option (String × String) :=
  let line := trimStart line
  if line = "" ∨ (stripPrefix "#" line).isSome then none
  else (splitOnce ':' line).map fun kv => (toAsciiLowercase kv.1, trim kv.2)

variable {path line line' key rest contents : String} {n : Nat}

theorem isComment_iff : IsComment line ↔ trimStart line = "" ∨ (stripPrefix "#" (trimStart line)).isSome := by
  simp only [IsComment, Option.isSome_iff_exists, stripPrefix_eq_some]

theorem HasKey.not_isComment (h : HasKey line key rest) : ¬IsComment line := by
  rintro (hempty | ⟨comment, hcomment⟩)
  · have := congrArg String.toList (h.split.symm.trans hempty)
    simp at this
  · have hsplit := congrArg String.toList (h.split.symm.trans hcomment)
    rw [String.toList_append, String.toList_append, String.toList_append, List.append_assoc] at hsplit
    -- The comment sign is no character of a key, and it is not the colon.
    cases hkey : key.toList with
    | nil =>
      rw [hkey] at hsplit
      exact absurd (List.cons.inj (hsplit : ':' :: rest.toList = '#' :: comment.toList)).1 (by decide)
    | cons c cs =>
      rw [hkey] at hsplit
      obtain rfl := (List.cons.inj (hsplit : c :: (cs ++ _) = '#' :: comment.toList)).1
      exact absurd (h.key '#' (hkey ▸ List.mem_cons_self)) (by decide)

theorem HasKey.splitOnce (h : HasKey line key rest) : splitOnce ':' (trimStart line) = some (key, rest) := by
  have hcolon : ':' ∉ key.toList := fun hm => absurd (h.key ':' hm) (by decide)
  rw [h.split]
  exact splitOnce_append hcolon

theorem entryOf_eq_none (h : IsComment line) : entryOf line = none := if_pos (isComment_iff.1 h)

theorem entryOf_eq_some (h : HasKey line key rest) : entryOf line = some (toAsciiLowercase key, trim rest) := by
  have hcomment : ¬(trimStart line = "" ∨ (stripPrefix "#" (trimStart line)).isSome) :=
    fun hc => h.not_isComment (isComment_iff.2 hc)
  rw [entryOf, if_neg hcomment, h.splitOnce]
  rfl

theorem hasKey_iff : HasKey line key rest ↔ splitOnce ':' (trimStart line) = some (key, rest) ∧
    ¬(trim rest = "" ∨ ¬key.toList.all isKeyChar) := by
  have hvalue : trim rest ≠ "" ↔ ∃ c ∈ rest.toList, isWhitespace c = false := by
    rw [ne_eq, trim_eq_empty]
    push Not
    simp only [ne_eq, Bool.not_eq_true]
  rw [not_or, not_not, ← ne_eq, hvalue, List.all_eq_true]
  constructor
  · exact fun h => ⟨h.splitOnce, h.value, h.key⟩
  · rintro ⟨hsplit, hvalue, hkey⟩
    exact ⟨(splitOnce_eq_some.1 hsplit).1, hkey, hvalue⟩

/-- A line is accepted if it is well-formed, with the entry that it has. -/
theorem parseLine_eq_ok {entry : Option (String × String)} :
    parseLine path n line = .ok entry ↔ WellFormed line ∧ entry = entryOf line := by
  have hparse : parseLine path n line =
      if trimStart line = "" ∨ (stripPrefix "#" (trimStart line)).isSome then .ok none
      else okOr (splitOnce ':' (trimStart line)) (.invalidLine (n + 1) path) >>= fun kv =>
        if trim kv.2 = "" ∨ ¬kv.1.toList.all isKeyChar then .err (.invalidLine (n + 1) path)
        else .ok (some (toAsciiLowercase kv.1, trim kv.2)) := rfl
  rw [hparse]
  constructor
  · intro h
    split at h
    · rename_i hcomment
      have hcomment := isComment_iff.2 hcomment
      exact ⟨.inl hcomment, (entryOf_eq_none hcomment).symm ▸ (Outcome.ok.inj h).symm⟩
    · obtain ⟨⟨key, rest⟩, hsplit, h⟩ := bind_eq_ok.1 h
      dsimp only at h
      split at h
      · cases h
      · rename_i hvalid
        have hkey : HasKey line key rest := hasKey_iff.2 ⟨okOr_eq_ok.1 hsplit, hvalid⟩
        exact ⟨.inr ⟨key, rest, hkey⟩, (entryOf_eq_some hkey).symm ▸ (Outcome.ok.inj h).symm⟩
  · rintro ⟨hcomment | ⟨key, rest, h⟩, rfl⟩
    · rw [if_pos (isComment_iff.1 hcomment), entryOf_eq_none hcomment]
    · obtain ⟨hsplit, hvalid⟩ := hasKey_iff.1 h
      rw [if_neg fun hc => h.not_isComment (isComment_iff.2 hc), hsplit, okOr_some, ok_bind, if_neg hvalid,
        entryOf_eq_some h]

/-- A file is accepted if its lines are well-formed, with the entries that they have. -/
theorem parseLines_eq_ok {entries : List (String × String)} : parseLines contents path = .ok entries ↔
    (∀ line ∈ lines contents, WellFormed line) ∧ entries = (lines contents).filterMap entryOf := by
  suffices hloop : ∀ (ls : List String) (n : Nat) (done : List (String × String)),
      (ls.zipIdx n).foldlM (fun entries numbered => do
        return entries ++ (← parseLine path numbered.2 numbered.1).toList) done = .ok entries ↔
        (∀ line ∈ ls, WellFormed line) ∧ entries = done ++ ls.filterMap entryOf from hloop _ 0 []
  intro ls
  induction ls with
  | nil =>
    intro n done
    simp [eq_comm]
  | cons line ls ih =>
    intro n done
    have hentries : done ++ (entryOf line).toList ++ ls.filterMap entryOf =
        done ++ (line :: ls).filterMap entryOf := by
      cases hentry : entryOf line with
      | none => simp [hentry]
      | some entry => simp [hentry]
    rw [List.zipIdx_cons, List.foldlM_cons, bind_eq_ok, List.forall_mem_cons]
    constructor
    · rintro ⟨next, hnext, h⟩
      obtain ⟨entry, hentry, hnext⟩ := bind_eq_ok.1 hnext
      obtain rfl := Outcome.ok.inj hnext
      obtain ⟨hline, rfl⟩ := parseLine_eq_ok.1 hentry
      obtain ⟨hlines, rfl⟩ := (ih _ _).1 h
      exact ⟨⟨hline, hlines⟩, hentries⟩
    · rintro ⟨⟨hline, hlines⟩, rfl⟩
      exact ⟨_, bind_eq_ok.2 ⟨_, parseLine_eq_ok.2 ⟨hline, rfl⟩, rfl⟩, (ih _ _).2 ⟨hlines, hentries.symm⟩⟩

/-! ## First values -/

/-- The value of the line, if its key in lowercase is the name. -/
def valueOf (name line : String) : Option String :=
  (entryOf line).bind fun (key, value) => if key = name then some value else none

/-- The value of the first line with the name as its key. -/
def firstValue (ls : List String) (name : String) : Option String := ls.findSome? (valueOf name)

/-- What the options of a lookup are, as those of the module. -/
def configOf (get : Getter) : Outcome PamError PamArgs :=
  match PolicyOptions.read get with
  | .ok options => .ok (.ofOptions options)
  | .err e => .err (.options e)
  | .panic => .panic

variable {name : String} {ls ls' : List String} {key' : String}

theorem HasKey.valueOf_eq (h : HasKey line key rest) :
    valueOf name line = if toAsciiLowercase key = name then some (trim rest) else none := by
  rw [valueOf, entryOf_eq_some h]
  rfl

theorem valueOf_eq_none (h : IsComment line) : valueOf name line = none := by
  rw [valueOf, entryOf_eq_none h]
  rfl

/-- The first entry with a name is that of the first line with it. -/
theorem lookup_filterMap_entryOf : (ls.filterMap entryOf).lookup name = firstValue ls name := by
  induction ls with
  | nil => rfl
  | cons line ls ih =>
    rw [List.filterMap_cons, firstValue, List.findSome?_cons, valueOf]
    cases entryOf line with
    | none => exact ih
    | some entry =>
      obtain ⟨key, value⟩ := entry
      dsimp only [Option.bind_some]
      by_cases hkey : key = name
      · rw [if_pos hkey, hkey, List.lookup_cons_self]
      · rw [if_neg hkey, List.lookup_cons, beq_false_of_ne (Ne.symm hkey)]
        exact ih

/-- The options of a file are those of the first values of its lines. -/
theorem parseConfig_eq (h : ∀ line ∈ lines contents, WellFormed line) :
    parseConfig contents path = configOf fun name => .ok (firstValue (lines contents) name) := by
  have hlookup : lookupEntry ((lines contents).filterMap entryOf) =
      fun name => .ok (firstValue (lines contents) name) :=
    funext fun name => congrArg Except.ok lookup_filterMap_entryOf
  have hread : parseConfig contents path = parseLines contents path >>= fun entries =>
      configOf (lookupEntry entries) := rfl
  rw [hread, parseLines_eq_ok.2 ⟨h, rfl⟩, ok_bind, hlookup]

/-! ## Edits -/

/-- An edit of the lines that keeps the first value of each key. -/
inductive Edit : List String → List String → Prop
  | insert {before after line} (h : IsComment line) : Edit (before ++ after) (before ++ line :: after)
  | delete {before after line} (h : IsComment line) : Edit (before ++ line :: after) (before ++ after)
  /-- There is an earlier line with the key, in any case of its letters. -/
  | drop {before after line key rest line' key' rest'} (h : HasKey line key rest) (hline' : line' ∈ before)
      (h' : HasKey line' key' rest') (hkey : toAsciiLowercase key' = toAsciiLowercase key) :
      Edit (before ++ line :: after) (before ++ after)
  /-- The case of letters of the key is changed. -/
  | recase {before after line key rest line' key'} (h : HasKey line key rest)
      (h' : trimStart line' = key' ++ ":" ++ rest) (hkey : toAsciiLowercase key' = toAsciiLowercase key) :
      Edit (before ++ line :: after) (before ++ line' :: after)
  | swap {before after line key rest line' key' rest'} (h : HasKey line key rest)
      (h' : HasKey line' key' rest') (hkey : toAsciiLowercase key ≠ toAsciiLowercase key') :
      Edit (before ++ line :: line' :: after) (before ++ line' :: line :: after)

theorem isKeyChar_toLower (c : Char) : isKeyChar c.toLower = isKeyChar c := by
  by_cases hc : c.toNat < 128
  · have hall : ∀ n : Fin 128, isKeyChar (Char.ofNat n).toLower = isKeyChar (Char.ofNat n) := by decide
    simpa using hall ⟨c.toNat, hc⟩
  · rw [toLower_of_le (Nat.not_lt.1 hc)]

theorem isKey_toAsciiLowercase : (∀ c ∈ (toAsciiLowercase key).toList, isKeyChar c = true) ↔
    ∀ c ∈ key.toList, isKeyChar c = true := by
  rw [toAsciiLowercase, String.toList_ofList, List.forall_mem_map]
  simp only [isKeyChar_toLower]

/-- A key in another case is still one. -/
theorem HasKey.recase (h : HasKey line key rest) (h' : trimStart line' = key' ++ ":" ++ rest)
    (hkey : toAsciiLowercase key' = toAsciiLowercase key) : HasKey line' key' rest where
  split := h'
  key := isKey_toAsciiLowercase.1 (hkey ▸ isKey_toAsciiLowercase.2 h.key)
  value := h.value

theorem Edit.wellFormed (h : Edit ls ls') (hls : ∀ line ∈ ls, WellFormed line) :
    ∀ line ∈ ls', WellFormed line := by
  cases h with
  | insert h =>
    rw [List.forall_mem_append] at hls ⊢
    exact ⟨hls.1, List.forall_mem_cons.2 ⟨.inl h, hls.2⟩⟩
  | delete h | drop h =>
    rw [List.forall_mem_append] at hls ⊢
    exact ⟨hls.1, (List.forall_mem_cons.1 hls.2).2⟩
  | recase h h' hkey =>
    rw [List.forall_mem_append, List.forall_mem_cons] at hls ⊢
    exact ⟨hls.1, .inr ⟨_, _, h.recase h' hkey⟩, hls.2.2⟩
  | swap h h' =>
    rw [List.forall_mem_append, List.forall_mem_cons, List.forall_mem_cons] at hls ⊢
    exact ⟨hls.1, hls.2.2.1, hls.2.1, hls.2.2.2⟩

/-- Only lines that are read count. -/
theorem findSome?_cons_of_eq_none (h : valueOf name line = none) :
    (line :: ls).findSome? (valueOf name) = ls.findSome? (valueOf name) :=
  List.findSome?_cons_of_isNone (Option.isNone_iff_eq_none.2 h)

theorem Edit.firstValue_eq (h : Edit ls ls') : firstValue ls' name = firstValue ls name := by
  cases h with
  | insert h | delete h =>
    rw [firstValue, firstValue, List.findSome?_append, List.findSome?_append,
      findSome?_cons_of_eq_none (valueOf_eq_none h)]
  | @drop before after line key rest line' key' rest' h hline' h' hkey =>
    rw [firstValue, firstValue, List.findSome?_append, List.findSome?_append]
    by_cases hname : toAsciiLowercase key = name
    · -- The name has a value before the line.
      have hbefore : (before.findSome? (valueOf name)).isSome := by
        rw [List.findSome?_isSome_iff]
        exact ⟨line', hline', by rw [h'.valueOf_eq, if_pos (hkey.trans hname)]; rfl⟩
      rw [Option.or_of_isSome hbefore, Option.or_of_isSome hbefore]
    · rw [findSome?_cons_of_eq_none (by rw [h.valueOf_eq, if_neg hname])]
  | @recase before after line key rest line' key' h h' hkey =>
    have hvalue : valueOf name line' = valueOf name line := by
      rw [(h.recase h' hkey).valueOf_eq, h.valueOf_eq, hkey]
    rw [firstValue, firstValue, List.findSome?_append, List.findSome?_append, List.findSome?_cons,
      List.findSome?_cons, hvalue]
  | @swap before after line key rest line' key' rest' h h' hkey =>
    -- At most one of the lines has the name.
    have hone : valueOf name line = none ∨ valueOf name line' = none := by
      rw [h.valueOf_eq, h'.valueOf_eq]
      by_cases hname : toAsciiLowercase key = name
      · exact .inr (if_neg fun hname' => hkey (hname.trans hname'.symm))
      · exact .inl (if_neg hname)
    rw [firstValue, firstValue, List.findSome?_append, List.findSome?_append]
    rcases hone with hnone | hnone <;> simp only [List.findSome?_cons, hnone]

theorem wellFormed_of_edits (h : Relation.ReflTransGen Edit ls ls') (hls : ∀ line ∈ ls, WellFormed line) :
    ∀ line ∈ ls', WellFormed line := by
  induction h with
  | refl => exact hls
  | tail _ hedit ih => exact hedit.wellFormed ih

theorem firstValue_eq_of_edits (h : Relation.ReflTransGen Edit ls ls') :
    firstValue ls' name = firstValue ls name := by
  induction h with
  | refl => rfl
  | tail _ hedit ih => exact hedit.firstValue_eq.trans ih

/-- A file is parsed if its lines are well-formed, to the options of the first values of its
    keys; edits that keep these values change nothing. -/
theorem parseConfig_firstValue (contents path : String) :
    ((∃ entries, parseLines contents path = .ok entries) ↔ ∀ line ∈ lines contents, WellFormed line) ∧
      ((∀ line ∈ lines contents, WellFormed line) →
        parseConfig contents path = (configOf fun name => .ok (firstValue (lines contents) name)) ∧
          ∀ contents', Relation.ReflTransGen Edit (lines contents) (lines contents') →
            (∃ entries, parseLines contents' path = .ok entries) ∧
              parseConfig contents' path = parseConfig contents path) := by
  refine ⟨⟨?_, fun h => ⟨_, parseLines_eq_ok.2 ⟨h, rfl⟩⟩⟩, fun h => ⟨parseConfig_eq h, fun contents' hedits => ?_⟩⟩
  · rintro ⟨entries, hentries⟩
    exact (parseLines_eq_ok.1 hentries).1
  · have h' := wellFormed_of_edits hedits h
    refine ⟨⟨_, parseLines_eq_ok.2 ⟨h', rfl⟩⟩, ?_⟩
    rw [parseConfig_eq h, parseConfig_eq h']
    simp only [firstValue_eq_of_edits hedits]

namespace Fixture

def gracedLines : List String := ["# seconds", "oauthbearer_grace: 5", "OAuthBearer_Grace: 7"]

/-- The comment is deleted, the line that is not read is dropped, and the other is put in capitals. -/
theorem edits_gracedLines : Relation.ReflTransGen Edit gracedLines ["OAUTHBEARER_GRACE: 5"] := by
  have hfirst : HasKey "oauthbearer_grace: 5" "oauthbearer_grace" " 5" :=
    ⟨by decide +kernel, List.all_eq_true.1 (by decide +kernel), '5', by decide, by decide⟩
  have hsecond : HasKey "OAuthBearer_Grace: 7" "OAuthBearer_Grace" " 7" :=
    ⟨by decide +kernel, List.all_eq_true.1 (by decide +kernel), '7', by decide, by decide⟩
  have hdelete : Edit ([] ++ "# seconds" :: ["oauthbearer_grace: 5", "OAuthBearer_Grace: 7"])
      ([] ++ ["oauthbearer_grace: 5", "OAuthBearer_Grace: 7"]) := .delete (.inr ⟨" seconds", by decide +kernel⟩)
  have hdrop : Edit (["oauthbearer_grace: 5"] ++ "OAuthBearer_Grace: 7" :: []) (["oauthbearer_grace: 5"] ++ []) :=
    .drop hsecond (List.mem_singleton_self _) hfirst (by decide +kernel)
  have hrecase : Edit ([] ++ "oauthbearer_grace: 5" :: []) ([] ++ "OAUTHBEARER_GRACE: 5" :: []) :=
    .recase hfirst (by decide +kernel : trimStart "OAUTHBEARER_GRACE: 5" = "OAUTHBEARER_GRACE" ++ ":" ++ " 5")
      (by decide +kernel)
  exact .tail (.tail (.single hdelete) hdrop) hrecase

end Fixture

/-- The grace of a file stays what it was. -/
theorem parseConfig_firstValue_fixture :
    parseConfig "OAUTHBEARER_GRACE: 5" "oauth.conf" =
      parseConfig "# seconds\noauthbearer_grace: 5\r\nOAuthBearer_Grace: 7\n" "oauth.conf" := by
  have hlines : lines "# seconds\noauthbearer_grace: 5\r\nOAuthBearer_Grace: 7\n" = Fixture.gracedLines := by
    decide +kernel
  have hlines' : lines "OAUTHBEARER_GRACE: 5" = ["OAUTHBEARER_GRACE: 5"] := by decide +kernel
  obtain ⟨hwellFormed, hvalues⟩ :=
    parseConfig_firstValue "# seconds\noauthbearer_grace: 5\r\nOAuthBearer_Grace: 7\n" "oauth.conf"
  have hparsed := hwellFormed.1 ⟨[("oauthbearer_grace", "5"), ("oauthbearer_grace", "7")], by decide +kernel⟩
  refine ((hvalues hparsed).2 _ ?_).2
  rw [hlines, hlines']
  exact Fixture.edits_gracedLines

end CrudeOAuth.Pam
