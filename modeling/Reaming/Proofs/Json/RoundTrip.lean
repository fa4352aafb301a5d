import Reaming.Proofs.Json.Numbers
import Reaming.Proofs.Json.Strings

namespace Reaming.Json

/-- A value that has a text: its numbers are as the notation allows, and its strings are whole. -/
inductive Plain : Json → Prop where
  | null : Plain .null
  | bool (b : Bool) : Plain (.bool b)
  | number {n : Number} (written : n.Written) : Plain (.number n)
  | string (s : String) : Plain (.string (some s))
  | array {items : List Json} (plain : ∀ v ∈ items, Plain v) : Plain (.array items)
  | object {members : List (Text × Json)} (keys : ∀ m ∈ members, m.1.isSome = true)
      (plain : ∀ m ∈ members, Plain m.2) : Plain (.object members)

def Blank (cs : List Char) : Prop := ∀ c ∈ cs, isSpace c = true

theorem blank_nil : Blank [] :=
  fun _ hc => absurd hc List.not_mem_nil

structure Layout.Blanks (l : Layout) : Prop where
  newline : ∀ depth, Blank (l.newline depth)
  afterColon : Blank l.afterColon

theorem blanks_compact : Layout.compact.Blanks :=
  ⟨fun _ => blank_nil, blank_nil⟩

theorem blanks_pretty : Layout.pretty.Blanks := by
  refine ⟨fun depth => ?_, List.forall_mem_singleton.mpr rfl⟩
  refine List.forall_mem_cons.mpr ⟨rfl, fun c hc => ?_⟩
  rw [List.eq_of_mem_replicate hc]
  rfl

theorem skipSpace_append {ws : List Char} (h : Blank ws) (cs : List Char) :
    skipSpace (ws ++ cs) = skipSpace cs := by
  rw [skipSpace, List.dropWhile_append_of_pos h]
  rfl

theorem skipSpace_cons {c : Char} (h : isSpace c = false) (cs : List Char) :
    skipSpace (c :: cs) = c :: cs := by
  rw [skipSpace, List.dropWhile_cons_of_neg (by rw [h]; exact Bool.false_ne_true)]

theorem readValue?_skip {ws : List Char} (h : Blank ws) (fuel : Nat) (cs : List Char) :
    readValue? fuel (ws ++ cs) = readValue? fuel cs := by
  cases fuel with
  | zero => rfl
  | succ fuel => rw [readValue?, readValue?, skipSpace_append h]

theorem ends_cons {c : Char} (h : c.isDigit = false ∧ c ≠ '.' ∧ c ≠ 'e' ∧ c ≠ 'E')
    (cs : List Char) : Ends (c :: cs) := by
  rintro d ⟨⟩
  exact h

/-- A number goes on with no blank. -/
theorem ends_append {ws cs : List Char} (h : Blank ws) (ends : Ends cs) : Ends (ws ++ cs) := by
  cases ws with
  | nil => exact ends
  | cons c ws =>
    have hc := h c List.mem_cons_self
    refine ends_cons ?_ _
    simp only [isSpace, Bool.or_eq_true, beq_iff_eq] at hc
    rcases hc with ((rfl | rfl) | rfl) | rfl <;> decide

def StartsNumber (c : Char) : Prop := c = '-' ∨ c.isDigit = true

theorem StartsNumber.ne {c d : Char} (h : StartsNumber c) (sign : d ≠ '-')
    (digit : d.isDigit = false) : c ≠ d := by
  rintro rfl
  rcases h with rfl | h
  · exact sign rfl
  · rw [digit] at h
    cases h

theorem StartsNumber.not_space {c : Char} (h : StartsNumber c) : isSpace c = false := by
  have hne {d : Char} (sign : d ≠ '-') (digit : d.isDigit = false) : (c == d) = false :=
    beq_false_of_ne (h.ne sign digit)
  rw [isSpace, hne (by decide) rfl, hne (by decide) rfl, hne (by decide) rfl, hne (by decide) rfl]
  rfl

theorem Number.Written.front {n : Number} (h : n.Written) :
    ∃ c cs, n.text = c :: cs ∧ StartsNumber c := by
  rw [text_eq]
  cases n.negative with
  | true => exact ⟨'-', _, rfl, .inl rfl⟩
  | false =>
    obtain ⟨d, ds, hds⟩ := List.exists_cons_of_ne_nil h.nonempty
    rw [hds]
    exact ⟨d, _, rfl, .inr (h.whole d (hds ▸ List.mem_cons_self))⟩

/-- A value begins with no blank and with no bracket that closes. -/
theorem Plain.front (l : Layout) (depth : Nat) {v : Json} (h : Plain v) :
    ∃ c cs, text l depth v = c :: cs ∧ isSpace c = false ∧ c ≠ ']' := by
  cases h with
  | null => exact ⟨'n', _, by rw [text], by decide⟩
  | bool b =>
    cases b with
    | true => exact ⟨'t', _, by rw [text], by decide⟩
    | false => exact ⟨'f', _, by rw [text], by decide⟩
  | number written =>
    obtain ⟨c, cs, hcs, hc⟩ := written.front
    exact ⟨c, cs, by rw [text, hcs], hc.not_space, hc.ne (by decide) rfl⟩
  | string s => exact ⟨'"', _, by rw [text, stringText], by decide⟩
  | @array items plain =>
    cases items with
    | nil => exact ⟨'[', _, by rw [text], by decide⟩
    | cons v vs => exact ⟨'[', _, by rw [text], by decide⟩
  | @object members keys plain =>
    cases members with
    | nil => exact ⟨'\x7b', _, by rw [text], by decide⟩
    | cons m ms => exact ⟨'\x7b', _, by rw [text], by decide⟩

/-- With fuel enough a value reads back as it was written, up to its end. -/
def ReadsBack (l : Layout) (v : Json) : Prop :=
  ∀ depth fuel rest, 2 * (text l depth v).length ≤ fuel → Ends rest →
    readValue? fuel (text l depth v ++ rest) = some (v, rest)

theorem readsBack_number (l : Layout) {n : Number} (h : n.Written) : ReadsBack l (.number n) := by
  intro depth fuel rest hfuel ends
  obtain ⟨c, cs, hcs, hc⟩ := h.front
  rw [text] at hfuel ⊢
  have hread := Number.readNumber?_text h ends
  rw [hcs] at hfuel hread ⊢
  obtain ⟨f, rfl⟩ := Nat.exists_eq_succ_of_ne_zero (n := fuel) (by rw [List.length_cons] at hfuel; omega)
  rw [List.cons_append] at hread ⊢
  rw [readValue?, skipSpace_cons hc.not_space]
  dsimp only
  rw [if_neg (hc.ne (by decide) rfl), if_neg (hc.ne (by decide) rfl),
    if_neg (hc.ne (by decide) rfl), if_neg (hc.ne (by decide) rfl), if_neg (hc.ne (by decide) rfl),
    if_neg (hc.ne (by decide) rfl), hread]
  rfl

theorem readsBack_string (l : Layout) (s : String) : ReadsBack l (.string (some s)) := by
  intro depth fuel rest hfuel _
  rw [text, stringText] at hfuel ⊢
  obtain ⟨f, rfl⟩ := Nat.exists_eq_succ_of_ne_zero (n := fuel) (by rw [List.length_cons] at hfuel; omega)
  rw [List.cons_append, readValue?, skipSpace_cons rfl]
  dsimp only
  rw [if_pos rfl, List.append_assoc, List.singleton_append, readString?_text]
  rfl

theorem readItems?_last {f : Nat} {cs after rest : List Char} {v : Json}
    (value : readValue? f cs = some (v, after)) (close : skipSpace after = ']' :: rest) :
    readItems? (f + 1) cs = some ([v], rest) := by
  simp only [readItems?, value, close]

theorem readItems?_more {f : Nat} {cs after behind rest : List Char} {v : Json} {vs : List Json}
    (value : readValue? f cs = some (v, after)) (comma : skipSpace after = ',' :: behind)
    (items : readItems? f behind = some (vs, rest)) :
    readItems? (f + 1) cs = some (v :: vs, rest) := by
  simp only [readItems?, value, comma, items, Option.map_some]

/-- The items of an array read back up to its closing bracket, whatever blanks stand around them. -/
theorem readItems?_text {l : Layout} (hl : l.Blanks) {v : Json} {vs : List Json}
    (h : ∀ u ∈ v :: vs, ReadsBack l u) {depth fuel : Nat} {lead ws : List Char} (hlead : Blank lead)
    (hws : Blank ws) (rest : List Char)
    (hfuel : 2 * ((text l depth v).length + (itemsText l depth vs).length) < fuel) :
    readItems? fuel (lead ++ (text l depth v ++ (itemsText l depth vs ++ (ws ++ ']' :: rest)))) =
      some (v :: vs, rest) := by
  induction vs generalizing v fuel lead with
  | nil =>
    obtain ⟨f, rfl⟩ := Nat.exists_eq_succ_of_ne_zero (Nat.ne_zero_of_lt hfuel)
    have hends : Ends (ws ++ ']' :: rest) := ends_append hws (ends_cons (by decide) rest)
    have hv := h v List.mem_cons_self depth f (ws ++ ']' :: rest) (by omega) hends
    rw [← readValue?_skip hlead] at hv
    exact readItems?_last hv ((skipSpace_append hws _).trans (skipSpace_cons rfl rest))
  | cons u us ih =>
    obtain ⟨f, rfl⟩ := Nat.exists_eq_succ_of_ne_zero (Nat.ne_zero_of_lt hfuel)
    obtain ⟨hv, hus⟩ := List.forall_mem_cons.mp h
    rw [itemsText] at hfuel ⊢
    simp only [List.length_cons, List.length_append] at hfuel
    have hvalue {after : List Char} (ends : Ends after) :
        readValue? f (lead ++ (text l depth v ++ after)) = some (v, after) := by
      rw [readValue?_skip hlead]
      exact hv depth f after (by omega) ends
    rw [List.cons_append]
    refine readItems?_more (hvalue (ends_cons (by decide) _)) (skipSpace_cons rfl _) ?_
    rw [List.append_assoc, List.append_assoc]
    exact ih hus (hl.newline depth) (by omega)

def Member (f : Nat) (cs : List Char) (k : Text) (v : Json) (after : List Char) : Prop :=
  ∃ name colon value, skipSpace cs = '"' :: name ∧ readString? name = some (k, colon) ∧
    skipSpace colon = ':' :: value ∧ readValue? f value = some (v, after)

theorem readMembers?_last {f : Nat} {cs after rest : List Char} {k : Text} {v : Json}
    (member : Member f cs k v after) (close : skipSpace after = '\x7d' :: rest) :
    readMembers? (f + 1) cs = some ([(k, v)], rest) := by
  obtain ⟨name, colon, value, hname, hkey, hcolon, hvalue⟩ := member
  simp only [readMembers?, hname, hkey, hcolon, hvalue, close]

theorem readMembers?_more {f : Nat} {cs after behind rest : List Char} {k : Text} {v : Json}
    {ms : List (Text × Json)} (member : Member f cs k v after)
    (comma : skipSpace after = ',' :: behind) (members : readMembers? f behind = some (ms, rest)) :
    readMembers? (f + 1) cs = some ((k, v) :: ms, rest) := by
  obtain ⟨name, colon, value, hname, hkey, hcolon, hvalue⟩ := member
  simp only [readMembers?, hname, hkey, hcolon, hvalue, comma, members, Option.map_some]

theorem memberText_append (l : Layout) (depth : Nat) (k : String) (v : Json) (rest : List Char) :
    memberText l depth (some k, v) ++ rest =
      '"' :: (k.toList.flatMap escapeChar ++
        '"' :: ':' :: (l.afterColon ++ (text l depth v ++ rest))) := by
  rw [memberText, stringText]
  simp only [List.cons_append, List.append_assoc, List.nil_append]

theorem length_lt_memberText (l : Layout) (depth : Nat) (k : String) (v : Json) :
    (text l depth v).length < (memberText l depth (some k, v)).length := by
  have hlength := congrArg List.length (memberText_append l depth k v [])
  simp only [List.append_nil, List.length_cons, List.length_append] at hlength
  omega

theorem member_text {l : Layout} (hl : l.Blanks) (k : String) {v : Json} (h : ReadsBack l v)
    {depth f : Nat} {lead : List Char} (hlead : Blank lead) {after : List Char} (ends : Ends after)
    (hfuel : 2 * (memberText l depth (some k, v)).length ≤ f + 1) :
    Member f (lead ++ (memberText l depth (some k, v) ++ after)) (some k) v after := by
  have hlength := length_lt_memberText l depth k v
  have hvalue : readValue? f (l.afterColon ++ (text l depth v ++ after)) = some (v, after) := by
    rw [readValue?_skip hl.afterColon]
    exact h depth f after (by omega) ends
  rw [memberText_append]
  exact ⟨_, _, _, (skipSpace_append hlead _).trans (skipSpace_cons rfl _), readString?_text k _,
    skipSpace_cons rfl _, hvalue⟩

/-- So do the members of an object. -/
theorem readMembers?_text {l : Layout} (hl : l.Blanks) {k : String} {v : Json}
    {ms : List (Text × Json)} (keys : ∀ m ∈ ms, m.1.isSome = true) (hv : ReadsBack l v)
    (h : ∀ m ∈ ms, ReadsBack l m.2) {depth fuel : Nat} {lead ws : List Char}
    (hlead : Blank lead) (hws : Blank ws) (rest : List Char)
    (hfuel : 2 * ((memberText l depth (some k, v)).length + (membersText l depth ms).length) < fuel) :
    readMembers? fuel
      (lead ++ (memberText l depth (some k, v) ++ (membersText l depth ms ++ (ws ++ '\x7d' :: rest)))) =
        some ((some k, v) :: ms, rest) := by
  induction ms generalizing k v fuel lead with
  | nil =>
    obtain ⟨f, rfl⟩ := Nat.exists_eq_succ_of_ne_zero (Nat.ne_zero_of_lt hfuel)
    have hends : Ends (ws ++ '\x7d' :: rest) := ends_append hws (ends_cons (by decide) rest)
    exact readMembers?_last (member_text hl k hv hlead hends (by omega))
      ((skipSpace_append hws _).trans (skipSpace_cons rfl rest))
  | cons m ms ih =>
    obtain ⟨f, rfl⟩ := Nat.exists_eq_succ_of_ne_zero (Nat.ne_zero_of_lt hfuel)
    obtain ⟨key, u⟩ := m
    obtain ⟨hkey, hkeys⟩ := List.forall_mem_cons.mp keys
    obtain ⟨j, rfl⟩ := Option.isSome_iff_exists.mp hkey
    have hu : ReadsBack l u := h _ List.mem_cons_self
    have hms : ∀ m ∈ ms, ReadsBack l m.2 := fun m hm => h m (List.mem_cons_of_mem _ hm)
    rw [membersText] at hfuel ⊢
    simp only [List.length_cons, List.length_append] at hfuel
    rw [List.cons_append]
    refine readMembers?_more (member_text hl k hv hlead (ends_cons (by decide) _) (by omega))
      (skipSpace_cons rfl _) ?_
    rw [List.append_assoc, List.append_assoc]
    exact ih hkeys hu hms (hl.newline depth) (by omega)

theorem readValue?_items {f : Nat} {cs front rest : List Char} {c : Char} {vs : List Json}
    (first : skipSpace cs = c :: front) (opens : c ≠ ']')
    (items : readItems? f (c :: front) = some (vs, rest)) :
    readValue? (f + 1) ('[' :: cs) = some (.array vs, rest) := by
  rw [readValue?, skipSpace_cons rfl]
  dsimp only
  rw [if_neg (by decide), if_pos rfl, first]
  split
  · rename_i h
    exact absurd (List.cons.inj h).1 opens
  · rw [items]
    rfl

theorem readValue?_members {f : Nat} {cs front rest : List Char} {c : Char}
    {ms : List (Text × Json)} (first : skipSpace cs = c :: front) (opens : c ≠ '\x7d')
    (members : readMembers? f (c :: front) = some (ms, rest)) :
    readValue? (f + 1) ('\x7b' :: cs) = some (.object ms, rest) := by
  rw [readValue?, skipSpace_cons rfl]
  dsimp only
  rw [if_neg (by decide), if_neg (by decide), if_pos rfl, first]
  split
  · rename_i h
    exact absurd (List.cons.inj h).1 opens
  · rw [members]
    rfl

theorem readsBack_array {l : Layout} (hl : l.Blanks) {items : List Json}
    (plain : ∀ v ∈ items, Plain v) (h : ∀ v ∈ items, ReadsBack l v) :
    ReadsBack l (.array items) := by
  intro depth fuel rest hfuel _
  cases items with
  | nil =>
    rw [text] at hfuel ⊢
    obtain ⟨f, rfl⟩ := Nat.exists_eq_succ_of_ne_zero (Nat.ne_zero_of_lt hfuel)
    rfl
  | cons v vs =>
    obtain ⟨c, cs, hcs, hspace, hclose⟩ := (plain v List.mem_cons_self).front l (depth + 1)
    rw [text] at hfuel ⊢
    simp only [List.length_cons, List.length_append] at hfuel
    simp only [List.cons_append, List.append_assoc, List.nil_append]
    obtain ⟨f, rfl⟩ := Nat.exists_eq_succ_of_ne_zero (Nat.ne_zero_of_lt hfuel)
    have hitems : readItems? f ([] ++ (text l (depth + 1) v ++ (itemsText l (depth + 1) vs ++
        (l.newline depth ++ ']' :: rest)))) = some (v :: vs, rest) :=
      readItems?_text hl h blank_nil (hl.newline depth) rest (by omega)
    have hfirst (behind : List Char) : skipSpace (l.newline (depth + 1) ++ (c :: cs ++ behind)) =
        c :: (cs ++ behind) :=
      (skipSpace_append (hl.newline _) _).trans (skipSpace_cons hspace _)
    rw [hcs] at hitems ⊢
    exact readValue?_items (hfirst _) hclose hitems

theorem readsBack_object {l : Layout} (hl : l.Blanks) {members : List (Text × Json)}
    (keys : ∀ m ∈ members, m.1.isSome = true) (h : ∀ m ∈ members, ReadsBack l m.2) :
    ReadsBack l (.object members) := by
  intro depth fuel rest hfuel _
  cases members with
  | nil =>
    rw [text] at hfuel ⊢
    obtain ⟨f, rfl⟩ := Nat.exists_eq_succ_of_ne_zero (Nat.ne_zero_of_lt hfuel)
    rfl
  | cons m ms =>
    obtain ⟨key, v⟩ := m
    obtain ⟨hkey, hkeys⟩ := List.forall_mem_cons.mp keys
    obtain ⟨k, rfl⟩ := Option.isSome_iff_exists.mp hkey
    have hv : ReadsBack l v := h _ List.mem_cons_self
    have hms : ∀ m ∈ ms, ReadsBack l m.2 := fun m hm => h m (List.mem_cons_of_mem _ hm)
    rw [text] at hfuel ⊢
    simp only [List.length_cons, List.length_append] at hfuel
    simp only [List.cons_append, List.append_assoc, List.nil_append]
    obtain ⟨f, rfl⟩ := Nat.exists_eq_succ_of_ne_zero (Nat.ne_zero_of_lt hfuel)
    have hmembers : readMembers? f ([] ++ (memberText l (depth + 1) (some k, v) ++
        (membersText l (depth + 1) ms ++ (l.newline depth ++ '\x7d' :: rest)))) =
          some ((some k, v) :: ms, rest) :=
      readMembers?_text hl hkeys hv hms blank_nil (hl.newline depth) rest (by omega)
    rw [List.nil_append, memberText_append] at hmembers
    rw [memberText_append]
    refine readValue?_members ?_ (by decide) hmembers
    rw [skipSpace_append (hl.newline _), skipSpace_cons rfl]

theorem Plain.readsBack {l : Layout} (hl : l.Blanks) {v : Json} (h : Plain v) : ReadsBack l v := by
  induction h with
  | null =>
    intro depth fuel rest hfuel _
    rw [text] at hfuel ⊢
    obtain ⟨f, rfl⟩ := Nat.exists_eq_succ_of_ne_zero (Nat.ne_zero_of_lt hfuel)
    rfl
  | bool b =>
    intro depth fuel rest hfuel _
    cases b with
    | true =>
      rw [text] at hfuel ⊢
      obtain ⟨f, rfl⟩ := Nat.exists_eq_succ_of_ne_zero (Nat.ne_zero_of_lt hfuel)
      rfl
    | false =>
      rw [text] at hfuel ⊢
      obtain ⟨f, rfl⟩ := Nat.exists_eq_succ_of_ne_zero (Nat.ne_zero_of_lt hfuel)
      rfl
  | number written => exact readsBack_number l written
  | string s => exact readsBack_string l s
  | array plain ih => exact readsBack_array hl plain ih
  | object keys plain ih => exact readsBack_object hl keys ih

/-- A value that has a text reads back from it, in any layout. -/
theorem read?_text {l : Layout} (hl : l.Blanks) {v : Json} (h : Plain v) :
    read? (String.ofList (text l 0 v)) = some v := by
  have hread := h.readsBack hl 0 (2 * (text l 0 v).length + 2) [] (by omega) nofun
  rw [List.append_nil] at hread
  rw [read?, String.toList_ofList, hread]
  rfl

theorem read?_pretty {v : Json} (h : Plain v) : read? v.pretty = some v :=
  read?_text blanks_pretty h

end Reaming.Json
