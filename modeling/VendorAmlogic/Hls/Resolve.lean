import VendorAmlogic.Lib.Uri
import VendorAmlogic.Hls.Url

/-!
# Resolution of a URL in a playlist

`makeUrl` of `hls_main/hls_m3uparser.c` against the resolution of RFC 3986. It
searches the text of the base for slashes, and does not know where the server
is in it, and dot segments of the base stay where the reference climbs over
them.
-/

namespace VendorAmlogic.Hls

open VendorAmlogic.Lib VendorAmlogic.Lib.Uri

/-! ### The climb -/

theorem climb_stop {size : Nat} {buf rel : List Byte} {sep : Bool} (h : ¬ bytes "../" <+: rel) :
    climb size buf sep rel = (buf, rel) := by
  unfold climb
  split
  · rename_i r
    exact absurd ⟨r, rfl⟩ h
  · rfl

theorem climb_nowhere (size : Nat) (buf rel : List Byte) : climb size buf false rel = (buf, rel) := by
  unfold climb
  split
  · rfl
  · rfl

theorem directory_append {f : List Byte} (hf : 0x2f ∉ f) (s : List Byte) :
    directory (s ++ 0x2f :: f) = s ++ [0x2f] := by
  rw [directory, strrchr_append hf]
  simp [before]

theorem directory_joinDirs (ds : List (List Byte)) {f : List Byte} (hf : 0x2f ∉ f) :
    directory (joinDirs ds ++ f) = joinDirs ds ∧
      (strrchr 0x2f (joinDirs ds ++ f)).isSome = decide (ds ≠ []) := by
  rcases List.eq_nil_or_concat ds with rfl | ⟨es, d, rfl⟩
  · rw [joinDirs_nil, List.nil_append, directory, strrchr_eq_none hf]
    exact ⟨rfl, rfl⟩
  · have hsplit : joinDirs (es.concat d) ++ f = (joinDirs es ++ d) ++ 0x2f :: f := by simp
    rw [hsplit, directory_append hf, strrchr_append hf]
    simp

/-- One directory up. -/
theorem climb_up (size : Nat) (ds : List (List Byte)) {d : List Byte} (hd : 0x2f ∉ d)
    (rel : List Byte) :
    climb size (joinDirs (ds ++ [d])) true (bytes "../" ++ rel) =
      if d = bytes ".." then (strlcat size (joinDirs ds ++ d) [0x2f], bytes "../" ++ rel)
      else climb size (joinDirs ds) (decide (ds ≠ [])) rel := by
  have hup : (joinDirs (ds ++ [d])).dropLast = joinDirs ds ++ d := by
    rw [joinDirs_append, joinDirs_cons, joinDirs_nil, ← List.append_assoc, List.dropLast_concat]
  have hdir := directory_joinDirs ds hd
  have hread : bytes "../" ++ rel = 0x2e :: 0x2e :: 0x2f :: rel := rfl
  rw [hread]
  conv_lhs => unfold climb
  simp only [if_true, hup, hdir.1, hdir.2]
  -- the name of the directory is behind the last slash, if there is one
  rcases List.eq_nil_or_concat ds with rfl | ⟨es, e, rfl⟩
  · rw [joinDirs_nil, List.nil_append, strrchr_eq_none hd]
    rfl
  · have hsplit : joinDirs (es.concat e) ++ d = (joinDirs es ++ e) ++ 0x2f :: d := by simp
    rw [hsplit, strrchr_append hd]
    rfl

/-- The climb over directories that are not `..`. -/
theorem climb_over (size : Nat) (ds es : List (List Byte))
    (hes : Slashless es) (hdots : bytes ".." ∉ es) (rel : List Byte) :
    climb size (joinDirs (ds ++ es)) (decide (ds ++ es ≠ []))
        (joinDirs (List.replicate es.length (bytes "..")) ++ rel) =
      climb size (joinDirs ds) (decide (ds ≠ [])) rel := by
  induction es using List.reverseRecOn with
  | nil => simp
  | append_singleton es e ih =>
    have hlen : (es ++ [e]).length = es.length + 1 := by simp
    have hne : decide (ds ++ (es ++ [e]) ≠ []) = true := by simp
    have hsplit : joinDirs (List.replicate (es.length + 1) (bytes "..")) ++ rel =
        bytes "../" ++ (joinDirs (List.replicate es.length (bytes "..")) ++ rel) := by
      rw [List.replicate_succ, joinDirs_cons, List.append_assoc]
      rfl
    have he : e ≠ bytes ".." := fun h => hdots (by simp [h])
    rw [hne, hlen, hsplit, ← List.append_assoc, climb_up size _ (hes e (by simp)), if_neg he]
    exact ih (fun d hd => hes d (by simp [hd])) fun h => hdots (by simp [h])

/-- The climb stops under `..`. -/
theorem climb_dots {size : Nat} {ds : List (List Byte)}
    (hroom : (joinDirs (ds ++ [bytes ".."])).length < size) (rel : List Byte) :
    climb size (joinDirs (ds ++ [bytes ".."])) true (bytes "../" ++ rel) =
      (joinDirs (ds ++ [bytes ".."]), bytes "../" ++ rel) := by
  have hlen : (joinDirs ds ++ bytes "..").length + 1 < size := by
    simpa [joinDirs_append, joinDirs_cons, Nat.add_assoc] using hroom
  have hcat : strlcat size (joinDirs ds ++ bytes "..") [0x2f] = joinDirs (ds ++ [bytes ".."]) := by
    have hone : [(0x2f : Byte)].length ≤ size - 1 - (joinDirs ds ++ bytes "..").length := by
      rw [List.length_singleton]
      omega
    rw [strlcat, if_neg (by omega), List.take_of_length_le hone]
    simp [joinDirs]
  rw [climb_up size ds (by decide) rel, if_pos rfl, hcat]

theorem strlcat_eq {size : Nat} {dst : List Byte} (h : dst.length < size) (src : List Byte) :
    strlcat size dst src = (dst ++ src).take (size - 1) := by
  rw [strlcat, if_neg (by omega), List.take_append,
    List.take_of_length_le (l := dst) (by omega)]

/-! ### Directories kept by the climb -/

/-- What the last `k` directories leave. -/
def leave (k : Nat) (ds : List (List Byte)) : List (List Byte) := ds.take (ds.length - k)

theorem strlcat_prefix (size : Nat) (dst src : List Byte) : dst <+: strlcat size dst src := by
  unfold strlcat
  split
  · exact List.prefix_rfl
  · exact List.prefix_append _ _

theorem length_strlcat_le (size : Nat) (dst src : List Byte) :
    (strlcat size dst src).length ≤ dst.length + src.length := by
  unfold strlcat
  split
  · omega
  · rw [List.length_append, List.length_take]
    omega

/-- Two texts with one end are the same where the buffer ends, or the difference is not seen. -/
theorem take_append_eq_iff {x y t : List Byte} {n : Nat} (h : (y ++ t).length ≤ n) :
    (x ++ t).take n = y ++ t ↔
      x = y ∨ ∃ more, x = y ++ more ∧ t <+: more ++ t ∧ (y ++ t).length = n := by
  constructor
  · intro heq
    by_cases hlen : (x ++ t).length ≤ n
    · rw [List.take_of_length_le hlen] at heq
      exact .inl (List.append_cancel_right heq)
    · have hfull : (y ++ t).length = n := by
        rw [← heq, List.length_take]
        omega
      have hlonger : y.length ≤ x.length := by
        simp only [List.length_append] at hlen hfull
        omega
      have hy : y <+: x ++ t := (List.prefix_append y t).trans (heq ▸ List.take_prefix n _)
      obtain ⟨more, rfl⟩ := List.prefix_of_prefix_length_le hy (List.prefix_append x t) hlonger
      refine .inr ⟨more, rfl, ?_, hfull⟩
      have ht : y ++ t <+: y ++ (more ++ t) := by
        rw [← heq, List.append_assoc]
        exact List.take_prefix n _
      exact (List.prefix_append_right_inj y).mp ht
  · rintro (rfl | ⟨more, rfl, ⟨rest, hrest⟩, hfull⟩)
    · exact List.take_of_length_le h
    · rw [List.append_assoc, ← hrest, ← List.append_assoc, ← hfull, List.take_left]

/-- The last place of a directory among some at the end. -/
theorem exists_last {d : List Byte} {ds : List (List Byte)} {k : Nat}
    (h : d ∈ ds.drop (ds.length - k)) :
    ∃ as es, ds = as ++ [d] ++ es ∧ d ∉ es ∧ es.length < k := by
  obtain ⟨es, as, hsplit, hno⟩ := List.eq_append_cons_of_mem (List.mem_reverse.mpr h)
  have hdrop : ds.drop (ds.length - k) = as.reverse ++ d :: es.reverse := by
    rw [← List.reverse_reverse (ds.drop _), hsplit]
    simp
  refine ⟨ds.take (ds.length - k) ++ as.reverse, es.reverse, ?_, by simpa using hno, ?_⟩
  · conv_lhs => rw [← List.take_append_drop (ds.length - k) ds, hdrop]
    simp
  · have hlen := congrArg List.length hdrop
    simp only [List.length_drop, List.length_append, List.length_cons, List.length_reverse] at hlen
    rw [List.length_reverse]
    omega

theorem replicate_split {m k : Nat} (h : m ≤ k) (rel : List Byte) :
    joinDirs (List.replicate k (bytes "..")) ++ rel =
      joinDirs (List.replicate m (bytes "..")) ++
        (joinDirs (List.replicate (k - m) (bytes "..")) ++ rel) := by
  obtain ⟨j, rfl⟩ := Nat.exists_eq_add_of_le h
  rw [Nat.add_sub_cancel_left, List.replicate_add, joinDirs_append, List.append_assoc]

theorem replicate_succ_ups (k : Nat) (rel : List Byte) :
    joinDirs (List.replicate (k + 1) (bytes "..")) ++ rel =
      bytes "../" ++ (joinDirs (List.replicate k (bytes "..")) ++ rel) := by
  rw [List.replicate_succ, joinDirs_cons, List.append_assoc]
  rfl

/-- What the climb from these directories makes. -/
def climbed (size : Nat) (ds : List (List Byte)) (rel : List Byte) : List Byte :=
  strlcat size (climb size (joinDirs ds) (decide (ds ≠ [])) rel).1
    (climb size (joinDirs ds) (decide (ds ≠ [])) rel).2

theorem climbed_eq {size : Nat} {ds : List (List Byte)} {rel buf rest : List Byte}
    (h : climb size (joinDirs ds) (decide (ds ≠ [])) rel = (buf, rest)) :
    climbed size ds rel = strlcat size buf rest := by
  rw [climbed, h]

/-- The climb from the protocol of the base does not come back to the server. -/
theorem climb_lost {size : Nat} {name auth path t : List Byte} (hname : 0x2f ∉ name)
    (hdot : 0x2e ∉ name) (hfirst : name ≠ []) (ht : ¬ bytes "../" <+: t) (k : Nat) (hsize : 0 < size) :
    climbed size [name, []] (joinDirs (List.replicate k (bytes "..")) ++ t) ≠
      joinDirs [name, [], auth] ++ (path ++ t) := by
  intro h
  have hslash : Slashless [name, []] := by
    intro d hd
    rcases List.mem_cons.mp hd with rfl | hd
    · exact hname
    · rw [List.mem_singleton.mp hd]
      exact List.not_mem_nil
  have hdots : bytes ".." ∉ [name, []] := by
    intro hd
    rcases List.mem_cons.mp hd with rfl | hd
    · exact hdot (by decide)
    · exact absurd (List.mem_singleton.mp hd) (by decide)
  by_cases hk : k ≤ 2
  · have hclimb := climb_over size ([name, []].take (2 - k)) ([name, []].drop (2 - k))
      (fun d hd => hslash d (List.mem_of_mem_drop hd)) (fun hd => hdots (List.mem_of_mem_drop hd)) t
    rw [List.take_append_drop, List.length_drop, climb_stop ht] at hclimb
    have hlen : [name, ([] : List Byte)].length - (2 - k) = k := by
      show 2 - (2 - k) = k
      omega
    rw [hlen] at hclimb
    have hle := length_strlcat_le size (joinDirs ([name, []].take (2 - k))) t
    have hpre : (joinDirs ([name, ([] : List Byte)].take (2 - k))).length ≤ (joinDirs [name, []]).length := by
      conv_rhs => rw [← List.take_append_drop (2 - k) [name, []], joinDirs_append,
        List.length_append]
      omega
    have hcut := congrArg List.length h
    rw [climbed_eq hclimb] at hcut
    simp only [joinDirs_cons, joinDirs_nil, List.length_append, List.length_cons, List.length_nil] at hcut hpre hle
    omega
  · obtain ⟨j, hj⟩ : ∃ j, k - 2 = j + 1 := ⟨k - 3, by omega⟩
    have hrel : joinDirs (List.replicate k (bytes "..")) ++ t =
        joinDirs (List.replicate [name, ([] : List Byte)].length (bytes "..")) ++
          (bytes "../" ++ (joinDirs (List.replicate j (bytes "..")) ++ t)) := by
      rw [replicate_split (m := 2) (by omega), hj, replicate_succ_ups]
      rfl
    have hclimb := climb_over size [] _ hslash hdots
      (bytes "../" ++ (joinDirs (List.replicate j (bytes "..")) ++ t))
    rw [List.nil_append, ← hrel, show decide (([] : List (List Byte)) ≠ []) = false from rfl,
      climb_nowhere] at hclimb
    have hcat (src : List Byte) : strlcat size [] src = ([] ++ src).take (size - 1) :=
      strlcat_eq hsize src
    rw [climbed_eq hclimb, joinDirs_nil, hcat, List.nil_append] at h
    obtain ⟨c, rest, rfl⟩ := List.exists_cons_of_ne_nil hfirst
    cases hn : size - 1 with
    | zero =>
      rw [hn] at h
      cases h
    | succ n =>
      rw [hn] at h
      exact hdot ((List.cons.inj h).1 ▸ List.mem_cons_self)

/-- The directories before a text are the right ones; or there are more, and they repeat the text so
that a buffer that is full does not show it. -/
def Same (full : Prop) (kept right : List (List Byte)) (t : List Byte) : Prop :=
  kept = right ∨ ∃ more, kept = right ++ more ∧ t <+: joinDirs more ++ t ∧ full

/-- What the climb is about: the server, the directories in the buffer, those that are right, and
the reference without its `../`. -/
structure Scene (name auth : List Byte) (hs right es : List (List Byte)) (f tail : List Byte) :
    Prop where
  name_slash : 0x2f ∉ name
  name_dot : 0x2e ∉ name
  name_ne : name ≠ []
  inAuth : Uri.Plain auth
  inHeld : ∀ d ∈ hs, Uri.Plain d
  inRight : ∀ d ∈ right, Uri.Plain d
  rightDots : NoDots right
  inRest : ∀ d ∈ es, Uri.Plain d
  inName : Uri.Plain f
  restDots : NoDots (es ++ [f])
  inTail : ∀ c ∈ tail.head?, pathEnd c = true

namespace Scene

variable {name auth : List Byte} {hs right es : List (List Byte)} {f tail : List Byte}
  (h : Scene name auth hs right es f tail)

include h

theorem dots_notMem : bytes ".." ∉ right ++ es := by
  intro hmem
  rcases List.mem_append.mp hmem with hmem | hmem
  · exact (h.rightDots _ hmem).2 rfl
  · exact (h.restDots _ (List.mem_append_left [f] hmem)).2 rfl

/-- The resolution has no dot segment among its directories. -/
theorem not_prefix {ds : List (List Byte)} (hds : ∀ d ∈ ds, Uri.Plain d) (hdots : bytes ".." ∈ ds) :
    ¬ joinDirs ds <+: joinDirs right ++ (joinDirs es ++ (f ++ tail)) := by
  intro hpre
  rw [← List.append_assoc, ← joinDirs_append] at hpre
  have hall : ∀ e ∈ right ++ es, Uri.Plain e := fun e he =>
    (List.mem_append.mp he).elim (h.inRight e) (h.inRest e)
  exact h.dots_notMem ((prefix_of_joinDirs hds hall h.inName h.inTail hpre).subset hdots)

theorem not_up : ¬ bytes "../" <+: joinDirs es ++ (f ++ tail) := by
  intro hpre
  have hds : ∀ d ∈ [bytes ".."], Uri.Plain d := fun d hd => by
    rw [List.mem_singleton.mp hd]
    decide
  have hmem := (prefix_of_joinDirs hds h.inRest h.inName h.inTail hpre).subset List.mem_cons_self
  exact h.dots_notMem (List.mem_append_right right hmem)

/-- The text is not a dot segment that the buffer ends in. -/
theorem not_dots {n : Nat} (hn : 0 < n) (rel : List Byte) :
    (bytes "../" ++ rel).take n ≠ joinDirs right ++ (joinDirs es ++ (f ++ tail)) := by
  intro heq
  have hds : ∀ d ∈ [bytes ".."], Uri.Plain d := fun d hd => by
    rw [List.mem_singleton.mp hd]
    decide
  by_cases h3 : 3 ≤ n
  · refine h.not_prefix hds List.mem_cons_self (heq ▸ ?_)
    rw [List.take_append, List.take_of_length_le (show (bytes "../").length ≤ n from h3)]
    exact List.prefix_append _ _
  · have hcut : (bytes "../" ++ rel).take n = (bytes "..").take n := by
      obtain rfl | rfl : n = 1 ∨ n = 2 := by omega
      · rfl
      · rfl
    have hmem {c : Byte} (hc : c ∈ (bytes "..").take n) : c = 0x2e := by
      have hall : ∀ c ∈ bytes "..", c = 0x2e := by decide
      exact hall c (List.mem_of_mem_take hc)
    rw [hcut, ← List.append_assoc, ← joinDirs_append] at heq
    have hdirs : right ++ es = [] := by
      rcases hall : right ++ es with _ | ⟨d, ds⟩
      · rfl
      · have hslash : (0x2f : Byte) ∈ (bytes "..").take n := by
          rw [heq, hall, joinDirs_cons]
          simp
        exact absurd (hmem hslash) (by decide)
    have htail : tail = [] := by
      rcases htail : tail with _ | ⟨c, t⟩
      · rfl
      · have hc : c ∈ (bytes "..").take n := by
          rw [heq, htail]
          simp
        have hend := h.inTail c (by rw [htail]; rfl)
        rw [hmem hc] at hend
        cases hend
    rw [hdirs, htail, joinDirs_nil, List.nil_append, List.append_nil] at heq
    have hname := h.restDots f (List.mem_append_right es List.mem_cons_self)
    obtain rfl | rfl : n = 1 ∨ n = 2 := by omega
    · exact hname.1 heq.symm
    · exact hname.2 heq.symm

theorem slash_held {ds : List (List Byte)} (hds : ∀ d ∈ ds, d ∈ hs) : Slashless ds :=
  fun d hd => (h.inHeld d (hds d hd)).slash

/-- The climb stays on the server and removes no `..`. -/
theorem climb_kept {size k : Nat} (hroom : (joinDirs ([name, [], auth] ++ hs)).length < size)
    (hfit : (joinDirs ([name, [], auth] ++ right) ++ (joinDirs es ++ (f ++ tail))).length < size)
    (hk : k ≤ hs.length) (hdots : bytes ".." ∉ hs.drop (hs.length - k)) :
    climbed size ([name, [], auth] ++ hs)
        (joinDirs (List.replicate k (bytes "..")) ++ (joinDirs es ++ (f ++ tail))) =
        joinDirs ([name, [], auth] ++ right) ++ (joinDirs es ++ (f ++ tail)) ↔
      Same ((joinDirs ([name, [], auth] ++ right) ++ (joinDirs es ++ (f ++ tail))).length + 1 = size)
        (leave k hs) right (joinDirs es ++ (f ++ tail)) := by
  have hleave : leave k hs ++ hs.drop (hs.length - k) = hs := List.take_append_drop _ _
  have hkept : ∀ d ∈ leave k hs, Uri.Plain d := fun d hd => h.inHeld d (List.mem_of_mem_take hd)
  have hclimb := climb_over size ([name, [], auth] ++ leave k hs) _
    (h.slash_held fun d hd => List.mem_of_mem_drop hd) hdots (joinDirs es ++ (f ++ tail))
  have hcount : (hs.drop (hs.length - k)).length = k := by
    rw [List.length_drop]
    omega
  rw [List.append_assoc, hleave, hcount, climb_stop h.not_up] at hclimb
  have hlen : (joinDirs ([name, [], auth] ++ leave k hs)).length < size := by
    refine Nat.lt_of_le_of_lt ?_ hroom
    conv_rhs => rw [← hleave, ← List.append_assoc, joinDirs_append, List.length_append]
    exact Nat.le_add_right _ _
  have hinj : joinDirs ([name, [], auth] ++ leave k hs) = joinDirs ([name, [], auth] ++ right) ↔
      leave k hs = right := by
    rw [joinDirs_append, joinDirs_append, List.append_right_inj]
    exact ⟨joinDirs_inj (fun d hd => (hkept d hd).slash) fun d hd => (h.inRight d hd).slash,
      congrArg joinDirs⟩
  rw [climbed_eq hclimb, strlcat_eq hlen, take_append_eq_iff (by omega), hinj, Same]
  refine or_congr_right ⟨?_, ?_⟩
  · rintro ⟨more, hmore, ht, hfull⟩
    rw [joinDirs_append, joinDirs_append, List.append_assoc, List.append_right_inj] at hmore
    have hpre : joinDirs right <+: joinDirs (leave k hs) ++ ([] ++ []) :=
      ⟨more, by rw [List.append_nil, List.append_nil, hmore]⟩
    obtain ⟨ds, hds⟩ := prefix_of_joinDirs h.inRight hkept (fun c hc => (List.not_mem_nil hc).elim)
      (fun c hc => by cases hc) hpre
    rw [← hds, joinDirs_append, List.append_right_inj] at hmore
    exact ⟨ds, hds.symm, hmore ▸ ht, by omega⟩
  · rintro ⟨ds, hds, ht, hfull⟩
    refine ⟨joinDirs ds, ?_, ht, by omega⟩
    rw [hds, ← List.append_assoc, joinDirs_append]

/-- A `..` of the base that the climb comes to stays in the result. -/
theorem climb_under {size k : Nat} (hroom : (joinDirs ([name, [], auth] ++ hs)).length < size)
    (hdots : bytes ".." ∈ hs.drop (hs.length - k)) (rel : List Byte) :
    climbed size ([name, [], auth] ++ hs) (joinDirs (List.replicate k (bytes "..")) ++ rel) ≠
      joinDirs ([name, [], auth] ++ right) ++ (joinDirs es ++ (f ++ tail)) := by
  obtain ⟨as, ds, hsplit, hno, hlt⟩ := exists_last hdots
  obtain ⟨j, hj⟩ : ∃ j, k - ds.length = j + 1 := ⟨k - ds.length - 1, by omega⟩
  have hassoc : [name, [], auth] ++ hs = [name, [], auth] ++ as ++ [bytes ".."] ++ ds := by
    rw [hsplit]
    simp
  have hlen : (joinDirs ([name, [], auth] ++ as ++ [bytes ".."])).length < size := by
    rw [hassoc, joinDirs_append, List.length_append] at hroom
    omega
  have hclimb := climb_over size ([name, [], auth] ++ as ++ [bytes ".."]) _
    (h.slash_held fun d hd => by rw [hsplit]; exact List.mem_append_right _ hd) hno
    (bytes "../" ++ (joinDirs (List.replicate j (bytes "..")) ++ rel))
  have hne : decide ([name, [], auth] ++ as ++ [bytes ".."] ≠ []) = true := by simp
  rw [← replicate_succ_ups, ← hj, ← replicate_split hlt.le, ← hassoc, hne, hj, replicate_succ_ups,
    climb_dots hlen] at hclimb
  rw [climbed_eq hclimb]
  intro heq
  have hpre := strlcat_prefix size (joinDirs ([name, [], auth] ++ as ++ [bytes ".."]))
    (bytes "../" ++ (joinDirs (List.replicate j (bytes "..")) ++ rel))
  rw [heq, List.append_assoc [name, [], auth], joinDirs_append [name, [], auth],
    joinDirs_append [name, [], auth], List.append_assoc (joinDirs [name, [], auth]),
    List.prefix_append_right_inj] at hpre
  refine h.not_prefix (fun d hd => h.inHeld d ?_) (List.mem_append_right as List.mem_cons_self) hpre
  rw [hsplit]
  exact List.mem_append_left ds hd

/-- A climb over the server. -/
theorem climb_server {size k : Nat} (hroom : (joinDirs [name, [], auth]).length < size)
    (hfit : (joinDirs ([name, [], auth] ++ right) ++ (joinDirs es ++ (f ++ tail))).length < size)
    (hk : hs.length < k) (hdots : bytes ".." ∉ hs) :
    climbed size ([name, [], auth] ++ hs)
        (joinDirs (List.replicate k (bytes "..")) ++ (joinDirs es ++ (f ++ tail))) =
        joinDirs ([name, [], auth] ++ right) ++ (joinDirs es ++ (f ++ tail)) ↔
      auth = bytes ".." ∧ (joinDirs [name, [], auth]).length + 1 = size := by
  obtain ⟨j, hj⟩ : ∃ j, k - hs.length = j + 1 := ⟨k - hs.length - 1, by omega⟩
  have hclimb := climb_over size [name, [], auth] _ (h.slash_held fun d hd => hd) hdots
    (joinDirs (List.replicate (k - hs.length) (bytes "..")) ++ (joinDirs es ++ (f ++ tail)))
  rw [← replicate_split hk.le, hj, replicate_succ_ups] at hclimb
  have hright : joinDirs ([name, [], auth] ++ right) ++ (joinDirs es ++ (f ++ tail)) =
      joinDirs [name, [], auth] ++ (joinDirs right ++ (joinDirs es ++ (f ++ tail))) := by
    rw [joinDirs_append [name, [], auth], List.append_assoc]
  by_cases hauth : auth = bytes ".."
  · subst hauth
    rw [show [name, [], bytes ".."] = [name, []] ++ [bytes ".."] from rfl] at hroom hclimb hright hfit ⊢
    rw [show decide ([name, []] ++ [bytes ".."] ≠ []) = true from rfl, climb_dots hroom] at hclimb
    rw [climbed_eq hclimb, strlcat_eq hroom, hright, List.take_append,
      List.take_of_length_le (l := joinDirs ([name, []] ++ [bytes ".."])) (by omega),
      List.append_right_inj]
    constructor
    · intro heq
      refine ⟨rfl, ?_⟩
      by_contra hne
      exact h.not_dots (by omega) _ heq
    · rintro ⟨-, hfull⟩
      rw [hright, List.length_append] at hfit
      rw [List.length_eq_zero_iff.mp (by omega :
        (joinDirs right ++ (joinDirs es ++ (f ++ tail))).length = 0)]
      rw [← hfull, Nat.add_sub_cancel, Nat.sub_self, List.take_zero]
  · refine iff_of_false (fun heq => ?_) fun hand => hauth hand.1
    have hstep := climb_up size [name, []] h.inAuth.slash
      (joinDirs (List.replicate j (bytes "..")) ++ (joinDirs es ++ (f ++ tail)))
    rw [if_neg hauth] at hstep
    have hsame : climbed size ([name, [], auth] ++ hs)
        (joinDirs (List.replicate k (bytes "..")) ++ (joinDirs es ++ (f ++ tail))) =
        climbed size [name, []]
          (joinDirs (List.replicate j (bytes "..")) ++ (joinDirs es ++ (f ++ tail))) :=
      climbed_eq (hclimb.trans hstep)
    rw [hsame, hright] at heq
    exact climb_lost h.name_slash h.name_dot h.name_ne h.not_up j (by omega) heq

theorem climb_iff {size k : Nat} (hroom : (joinDirs ([name, [], auth] ++ hs)).length < size)
    (hfit : (joinDirs ([name, [], auth] ++ right) ++ (joinDirs es ++ (f ++ tail))).length < size)
    (hrel : k = 0 → joinDirs es ++ (f ++ tail) ≠ []) :
    climbed size ([name, [], auth] ++ hs)
        (joinDirs (List.replicate k (bytes "..")) ++ (joinDirs es ++ (f ++ tail))) =
        joinDirs ([name, [], auth] ++ right) ++ (joinDirs es ++ (f ++ tail)) ↔
      (k ≤ hs.length ∧ bytes ".." ∉ hs.drop (hs.length - k) ∧
        Same ((joinDirs ([name, [], auth] ++ right) ++ (joinDirs es ++ (f ++ tail))).length + 1 = size)
          (leave k hs) right (joinDirs es ++ (f ++ tail))) ∨
      (auth = bytes ".." ∧ (joinDirs [name, [], auth]).length + 1 = size) := by
  have hserver : (joinDirs [name, [], auth]).length < size := by
    rw [joinDirs_append, List.length_append] at hroom
    omega
  -- A buffer that ends after the server holds no directory and has no room for a name.
  have hedge (hfull : (joinDirs [name, [], auth]).length + 1 = size) : hs = [] ∧ k ≠ 0 := by
    rw [joinDirs_append [name, [], auth], List.length_append] at hroom hfit
    rw [@List.length_append _ (joinDirs [name, [], auth])] at hfit
    refine ⟨?_, fun hk => hrel hk (List.length_eq_zero_iff.mp (by omega))⟩
    cases hs with
    | nil => rfl
    | cons d ds =>
      rw [joinDirs_cons d, List.length_append, List.length_cons] at hroom
      omega
  by_cases hdots : bytes ".." ∈ hs.drop (hs.length - k)
  · refine iff_of_false (h.climb_under hroom hdots _) ?_
    rintro (⟨-, hno, -⟩ | ⟨-, hfull⟩)
    · exact hno hdots
    · rw [(hedge hfull).1] at hdots
      exact List.not_mem_nil (List.mem_of_mem_drop hdots)
  · by_cases hk : k ≤ hs.length
    · rw [h.climb_kept hroom hfit hk hdots]
      refine ⟨fun hsame => .inl ⟨hk, hdots, hsame⟩, ?_⟩
      rintro (⟨-, -, hsame⟩ | ⟨-, hfull⟩)
      · exact hsame
      · obtain ⟨rfl, hpos⟩ := hedge hfull
        exact absurd (Nat.le_zero.mp hk) hpos
    · rw [show hs.length - k = 0 by omega, List.drop_zero] at hdots
      rw [h.climb_server hserver hfit (by omega) hdots]
      refine ⟨.inr, ?_⟩
      rintro (⟨hle, -⟩ | hand)
      · exact absurd hle hk
      · exact hand

end Scene

/-! ### The branches of `makeUrl` -/

theorem strstr_first {c : Byte} {s : List Byte} (h : c ∉ s) (pat t : List Byte) :
    strstr (c :: pat) (s ++ (c :: pat ++ t)) = some (c :: pat ++ t) := by
  induction s with
  | nil =>
    have hp : (c :: pat).isPrefixOf (c :: (pat ++ t)) = true :=
      List.isPrefixOf_iff_prefix.mpr ⟨t, rfl⟩
    exact if_pos hp
  | cons d s ih =>
    obtain ⟨hd, hs⟩ := not_or.mp (fun hmem => h (List.mem_cons.mpr hmem))
    have hp : ¬ (c :: pat).isPrefixOf (d :: (s ++ (c :: pat ++ t))) = true := fun hp =>
      hd (List.cons_prefix_cons.mp (List.isPrefixOf_iff_prefix.mp hp)).1
    rw [List.cons_append, strstr, if_neg hp, ih hs]

theorem before_append (s t : List Byte) : before (s ++ t) t = s := by
  simp [before]

theorem tolower_colon {c : Byte} : tolower c = 0x3a → c = 0x3a := by
  revert c; decide

theorem tolower_slash {c : Byte} : tolower c = 0x2f → c = 0x2f := by
  revert c; decide

theorem protocol_of_lower {s : List Byte} (h : s.map tolower = bytes "://") : s = bytes "://" := by
  obtain ⟨c1, s, rfl, h1, h⟩ := List.map_eq_cons_iff.mp h
  obtain ⟨c2, s, rfl, h2, h⟩ := List.map_eq_cons_iff.mp h
  obtain ⟨c3, s, rfl, h3, h⟩ := List.map_eq_cons_iff.mp h
  obtain rfl := List.map_eq_nil_iff.mp h
  rw [tolower_colon h1, tolower_slash h2, tolower_slash h3]
  rfl

/-- What starts with a protocol has `://` in it. -/
theorem exists_protocol (name : List Byte) {s : List Byte}
    (hname : (name ++ bytes "://").map tolower = name ++ bytes "://") (h : startsNoCase (name ++ bytes "://") s = true) :
    bytes "://" <:+: s := by
  rw [startsNoCase, hname, List.isPrefixOf_iff_prefix] at h
  obtain ⟨t, ht⟩ := h
  obtain ⟨front, rest, rfl, hfront, -⟩ := List.map_eq_append_iff.mp ht.symm
  obtain ⟨x, y, rfl, -, hy⟩ := List.map_eq_append_iff.mp hfront
  rw [protocol_of_lower hy]
  exact ⟨x, rest, rfl⟩

theorem not_starts_of_no_protocol {rel : List Byte} (h : ¬ bytes "://" <:+: rel) :
    ¬ (startsNoCase (bytes "http://") rel = true ∨ startsNoCase (bytes "https://") rel = true) := by
  rintro (hs | hs)
  · exact h (exists_protocol (bytes "http") (by decide) hs)
  · exact h (exists_protocol (bytes "https") (by decide) hs)

/-- A base URL as `makeUrl` reads it: the scheme, the authority, the path and the query. -/
structure BaseText (base scheme auth path query : List Byte) : Prop where
  text : base = scheme ++ bytes "://" ++ auth ++ (path ++ query)
  http : scheme.map tolower = bytes "http" ∨ scheme.map tolower = bytes "https"
  inAuth : ∀ c ∈ auth, authorityEnd c = false
  inPath : ∀ c ∈ path, pathEnd c = false
  rooted : path = [] ∨ path.head? = some 0x2f
  optional : query = [] ∨ ∃ q, query = 0x3f :: q

namespace BaseText

variable {base scheme auth path query : List Byte} (h : BaseText base scheme auth path query)

include h

theorem starts : startsNoCase (bytes "http://") base = true ∨
    startsNoCase (bytes "https://") base = true := by
  have hlow : base.map tolower = scheme.map tolower ++ (bytes "://" ++
      (auth ++ (path ++ query)).map tolower) := by
    rw [h.text, List.append_assoc, List.append_assoc, List.map_append, List.map_append]
    rfl
  rcases h.http with hs | hs
  · left
    rw [startsNoCase, List.isPrefixOf_iff_prefix, hlow, hs]
    exact ⟨_, rfl⟩
  · right
    rw [startsNoCase, List.isPrefixOf_iff_prefix, hlow, hs]
    exact ⟨_, rfl⟩

theorem head : (base.map tolower).head? = some 0x68 := by
  rw [h.text, List.map_append, List.map_append, List.map_append]
  rcases h.http with hs | hs
  · rw [hs]
    rfl
  · rw [hs]
    rfl

theorem plain : ¬ (startsNoCase (bytes "android:AmlogicPlayer") base = true ∨
    startsNoCase (bytes "DataSouce:AmlogicPlayerDataSouceProtocol") base = true) := by
  have other {pat : List Byte} {c : Byte} (hpat : (pat.map tolower).head? = some c)
      (hc : c ≠ 0x68) : ¬ startsNoCase pat base = true := by
    intro hs
    obtain ⟨t, ht⟩ := List.isPrefixOf_iff_prefix.mp hs
    have hhead := h.head
    rw [← ht, List.head?_append, hpat] at hhead
    exact hc (Option.some.inj hhead)
  rintro (hs | hs)
  · exact other (c := 0x61) (by decide +kernel) (by decide) hs
  · exact other (c := 0x64) (by decide +kernel) (by decide) hs

theorem protocol : (strstr (bytes "://") base).isSome :=
  strstr_isSome_iff.mpr ⟨scheme, auth ++ (path ++ query), by rw [h.text, List.append_assoc _ auth]⟩

theorem scheme_no {c : Byte} (hc : c ∉ (bytes "https")) (hlow : tolower c = c) : c ∉ scheme := by
  intro hmem
  have := List.mem_map_of_mem (f := tolower) hmem
  rw [hlow] at this
  rcases h.http with hs | hs
  · rw [hs] at this
    exact hc (List.mem_of_mem_take (i := 4) this)
  · rw [hs] at this
    exact hc this

theorem take_base {n : Nat} (hn : (scheme ++ bytes "://" ++ auth).length ≤ n) :
    base.take n = scheme ++ bytes "://" ++ auth ++
      (path ++ query).take (n - (scheme ++ bytes "://" ++ auth).length) := by
  rw [h.text, List.take_append, List.take_of_length_le hn]

theorem slash_notMem_auth : 0x2f ∉ auth := fun hmem => absurd (h.inAuth _ hmem) (by decide)

/-- Where the path of the server is cut off, in a buffer with room for the server. -/
theorem makeUrl_rooted {size : Nat} {rel : List Byte} (hostOf : List Byte → List Byte)
    (buf : List Byte) (hsize : (scheme ++ bytes "://" ++ auth).length < size - 1)
    (hrel : ¬ bytes "://" <:+: rel) (hhead : rel.head? = some 0x2f) :
    ∃ server, makeUrl hostOf size buf base rel = some (strlcat size server rel) ∧
      (path ≠ [] ∨ query = [] → server = scheme ++ bytes "://" ++ auth) ∧
      (path = [] → query ≠ [] → ∃ more, server = scheme ++ bytes "://" ++ auth ++ 0x3f :: more) := by
  have hplain := h.plain
  have hstarts : ¬ ¬ (startsNoCase (bytes "http://") base = true ∨
      startsNoCase (bytes "https://") base = true ∨ startsNoCase (bytes "file://") base = true ∨
      startsNoCase (bytes "/") base = true) := fun hno =>
    hno (h.starts.imp_right Or.inl)
  have hrelPlain := not_starts_of_no_protocol hrel
  have hsep : strstr (bytes "://") (strlcpy size base) = some (bytes "://" ++
      (auth ++ (path ++ query).take (size - 1 - (scheme ++ bytes "://" ++ auth).length))) := by
    rw [strlcpy, h.take_base hsize.le, List.append_assoc, List.append_assoc]
    exact strstr_first (h.scheme_no (by decide) (by decide)) _ _
  have hmake : makeUrl hostOf size buf base rel = some (strlcat size
      ((((strstr (bytes "://") (strlcpy size base)).bind fun sep => strchr 0x2f (sep.drop 3)).map
        (before (strlcpy size base))).getD (strlcpy size base)) rel) := by
    rw [makeUrl, if_neg hplain, if_neg hstarts, if_neg hrelPlain, if_pos ⟨h.protocol, hhead⟩]
    cases hfind : (strstr (bytes "://") (strlcpy size base)).bind
        fun sep => strchr 0x2f (sep.drop 3) with
    | none => simp only [hfind, Option.map_none, Option.getD_none]
    | some sep => simp only [hfind, Option.map_some, Option.getD_some]
  have hbind (r : List Byte) : (some (bytes "://" ++ (auth ++ r))).bind
      (fun sep => strchr 0x2f (sep.drop 3)) = strchr 0x2f r :=
    strchr_skip h.slash_notMem_auth r
  rw [hsep, hbind, strlcpy, h.take_base hsize.le] at hmake
  obtain ⟨m, hm⟩ : ∃ m, size - 1 - (scheme ++ bytes "://" ++ auth).length = m + 1 :=
    ⟨size - 1 - (scheme ++ bytes "://" ++ auth).length - 1, by omega⟩
  rw [hm] at hmake
  refine ⟨_, hmake, fun hcut => ?_, ?_⟩
  · rcases h.rooted with hnil | hpath
    · obtain rfl : query = [] := hcut.resolve_left fun hne => hne hnil
      simp [hnil, strchr]
    · obtain ⟨p, rfl⟩ : ∃ p, path = 0x2f :: p := ⟨path.tail, List.eq_cons_of_mem_head? hpath⟩
      rw [List.cons_append, List.take_succ_cons, strchr, if_pos rfl, Option.map_some,
        Option.getD_some, before_append]
  · rintro rfl hquery
    obtain ⟨q, rfl⟩ := h.optional.resolve_left hquery
    rw [List.nil_append, List.take_succ_cons, strchr, if_neg (by decide)]
    cases hfind : strchr 0x2f (q.take m) with
    | none => exact ⟨q.take m, rfl⟩
    | some t =>
      obtain ⟨w, hw⟩ := strchr_suffix hfind
      refine ⟨w, ?_⟩
      rw [← hw, Option.map_some, Option.getD_some, ← List.cons_append, ← List.append_assoc,
        before_append]

theorem query_notMem_body : 0x3f ∉ scheme ++ bytes "://" ++ auth ++ path := by
  intro hmem
  rcases List.mem_append.mp hmem with hmem | hmem
  · rcases List.mem_append.mp hmem with hmem | hmem
    · rcases List.mem_append.mp hmem with hmem | hmem
      · exact h.scheme_no (by decide) (by decide) hmem
      · exact absurd hmem (by decide)
    · exact absurd (h.inAuth _ hmem) (by decide)
  · exact absurd (h.inPath _ hmem) (by decide)

/-- What is left of the base where the query is cut off. -/
theorem cut_query (n : Nat) :
    (strchr 0x3f (base.take n) = none ∧ base.take n = (scheme ++ bytes "://" ++ auth ++ path).take n) ∨
      ∃ t, strchr 0x3f (base.take n) = some t ∧
        before (base.take n) t = (scheme ++ bytes "://" ++ auth ++ path).take n := by
  have hno : 0x3f ∉ (scheme ++ bytes "://" ++ auth ++ path).take n := fun hmem =>
    h.query_notMem_body (List.mem_of_mem_take hmem)
  rw [h.text, ← List.append_assoc, @List.take_append _ _ query]
  have hend : query.take (n - (scheme ++ bytes "://" ++ auth ++ path).length) = [] ∨
      ∃ q, query.take (n - (scheme ++ bytes "://" ++ auth ++ path).length) = 0x3f :: q := by
    rcases h.optional with rfl | ⟨q, rfl⟩
    · exact .inl List.take_nil
    · cases n - (scheme ++ bytes "://" ++ auth ++ path).length with
      | zero => exact .inl rfl
      | succ k => exact .inr ⟨q.take k, rfl⟩
  rcases hend with hq | ⟨q, hq⟩
  · rw [hq, List.append_nil]
    exact .inl ⟨strchr_eq_none hno, rfl⟩
  · rw [hq]
    exact .inr ⟨_, strchr_append hno q, before_append _ _⟩

/-- The climb starts at the directories of the base that are in the buffer. -/
theorem makeUrl_climb {rel : List Byte} (hostOf : List Byte → List Byte) (size : Nat)
    (buf : List Byte) (hrel : ¬ bytes "://" <:+: rel) (hhead : rel.head? ≠ some 0x2f)
    {ds : List (List Byte)} {f : List Byte} (hf : 0x2f ∉ f)
    (hbody : (scheme ++ bytes "://" ++ auth ++ path).take (size - 1) = joinDirs ds ++ f) :
    makeUrl hostOf size buf base rel =
      some (climbed size ds rel) := by
  have hplain := h.plain
  have hstarts : ¬ ¬ (startsNoCase (bytes "http://") base = true ∨
      startsNoCase (bytes "https://") base = true ∨ startsNoCase (bytes "file://") base = true ∨
      startsNoCase (bytes "/") base = true) := fun hno =>
    hno (h.starts.imp_right Or.inl)
  have hrelPlain := not_starts_of_no_protocol hrel
  have hnone : strstr (bytes "://") rel = none := by
    rw [← Option.not_isSome_iff_eq_none, strstr_isSome_iff]
    exact hrel
  have hdir := directory_joinDirs ds hf
  rw [makeUrl, if_neg hplain, if_neg hstarts, if_neg hrelPlain, if_neg fun hr => hhead hr.2]
  simp only [hnone, hhead, Bool.false_eq_true, or_self, if_false]
  rcases h.cut_query (size - 1) with ⟨hq, hcut⟩ | ⟨t, hq, hcut⟩
  · rw [hcut, hbody] at hq
    simp only [strlcpy, hcut, hbody, hq, hdir.1, hdir.2, climbed]
  · simp only [strlcpy, hq, hcut, hbody, hdir.1, hdir.2, climbed]

end BaseText

/-! ### Resolution -/

/-- An absolute `http` or `https` URL with a host. -/
structure HttpUrl (u : Uri) : Prop where
  scheme : ∃ s, u.scheme = some s ∧ (sameNoCase s (bytes "http") ∨ sameNoCase s (bytes "https"))
  host : ∃ a, u.authority = some a ∧ a ≠ []
  absolute : u.fragment = none

/-- A reference to a place on the server, with dot segments at its start only. -/
structure Reference (rel : List Byte) : Prop where
  nonempty : rel ≠ []
  relative : (parse rel).scheme = none
  noProtocol : ¬ bytes "://" <:+: rel
  noServer : ¬ bytes "//" <+: rel
  noQuery : rel.head? ≠ some 0x3f
  noFragment : rel.head? ≠ some 0x23
  dots : NoDots ((ups (parse rel).path).2.splitOn 0x2f)

/-- The resolution of the reference. -/
def resolved (base rel : List Byte) : List Byte := ((parse base).resolve (parse rel)).recompose

/-- The scheme and the authority of the URL. -/
def server (u : Uri) : List Byte := u.schemeText ++ u.authorityText

/-- The directories of the path that are in a buffer of this size. -/
def held (size : Nat) (u : Uri) : List (List Byte) :=
  dirs ((u.path.take (size - 1 - (server u).length)).drop 1)

theorem HttpUrl.text {base : List Byte} (h : HttpUrl (parse base)) :
    ∃ s a, (parse base).authority = some a ∧ server (parse base) = s ++ bytes "://" ++ a ∧
      BaseText base s a (parse base).path ((parse base).query.elim [] (0x3f :: ·)) := by
  obtain ⟨s, hs, hname⟩ := h.scheme
  obtain ⟨a, ha, -⟩ := h.host
  have hform := wellFormed_parse base
  have hserver : server (parse base) = s ++ bytes "://" ++ a := by
    rw [server, schemeText, authorityText, hs, ha, Option.elim_some, Option.elim_some,
      List.append_assoc, List.append_assoc]
    rfl
  have htext := recompose_parse base
  rw [recompose, ← List.append_assoc, ← server, hserver, tailText, h.absolute, Option.elim_none,
    List.append_nil] at htext
  refine ⟨s, a, ha, hserver, htext.symm, ?_, hform.authority a ha, hform.path,
    hform.rooted (by rw [ha]; rfl), ?_⟩
  · exact hname.imp (fun hs => (of_decide_eq_true hs).trans (by decide)) fun hs =>
      (of_decide_eq_true hs).trans (by decide)
  · cases (parse base).query with
    | none => exact .inl rfl
    | some q => exact .inr ⟨q, rfl⟩

theorem Reference.text {rel : List Byte} (h : Reference rel) :
    (parse rel).authority = none ∧ (parse rel).path ≠ [] ∧
      rel = (parse rel).path ++ (parse rel).tailText := by
  have htext := recompose_parse rel
  have hauth : (parse rel).authority = none := by
    cases ha : (parse rel).authority with
    | none => rfl
    | some a =>
      rw [recompose, schemeText, authorityText, h.relative, ha] at htext
      exact absurd ⟨_, htext⟩ h.noServer
  rw [recompose, schemeText, authorityText, h.relative, hauth] at htext
  have hrel : rel = (parse rel).path ++ (parse rel).tailText := htext.symm
  refine ⟨hauth, fun hpath => ?_, hrel⟩
  rw [hpath, List.nil_append, tailText] at hrel
  cases hq : (parse rel).query with
  | some q =>
    rw [hq] at hrel
    exact h.noQuery (by rw [hrel]; rfl)
  | none =>
    cases hf : (parse rel).fragment with
    | some f =>
      rw [hq, hf] at hrel
      exact h.noFragment (by rw [hrel]; rfl)
    | none =>
      rw [hq, hf] at hrel
      exact h.nonempty hrel

theorem resolved_rooted {base rel : List Byte} (h : Reference rel)
    (hhead : (parse rel).path.head? = some 0x2f) :
    resolved base rel = server (parse base) ++ rel := by
  obtain ⟨hauth, hne, hrel⟩ := h.text
  have hremove : removeDotSegments (parse rel).path = (parse rel).path := by
    obtain ⟨p, hp⟩ : ∃ p, (parse rel).path = 0x2f :: p := ⟨_, List.eq_cons_of_mem_head? hhead⟩
    have hdots := h.dots
    rw [hp, show (ups (0x2f :: p)).2 = [] ++ 0x2f :: p from rfl,
      List.splitOn_append_cons_self_of_not_mem List.not_mem_nil] at hdots
    rw [hp]
    exact removeDotSegments_ups [] (fun d hd => (List.not_mem_nil hd).elim) 0
      fun d hd => hdots d (List.mem_cons_of_mem [] hd)
  have hres : (parse base).resolve (parse rel) = { parse base with
      path := (parse rel).path, query := (parse rel).query, fragment := (parse rel).fragment } := by
    rw [resolve, h.relative, hauth, if_neg (by decide), if_neg (by decide), if_neg hne, if_pos hhead,
      hremove]
  rw [resolved, hres, server, List.append_assoc]
  conv_rhs => rw [hrel]
  rfl

theorem resolved_climb {base rel : List Byte} (hb : HttpUrl (parse base)) (h : Reference rel)
    (hhead : (parse rel).path.head? ≠ some 0x2f) :
    resolved base rel = server (parse base) ++ 0x2f ::
      (joinDirs (leave (ups (parse rel).path).1 (normal (dirs ((parse base).path.drop 1)))) ++
        ((ups (parse rel).path).2 ++ (parse rel).tailText)) := by
  obtain ⟨hauth, hne, hrel⟩ := h.text
  obtain ⟨s, a, ha, hserver, hbase⟩ := hb.text
  have hmerge : ∃ ds, Slashless ds ∧ dirs ((parse base).path.drop 1) = ds ∧
      merge (parse base) (parse rel).path = 0x2f :: (joinDirs ds ++ (parse rel).path) := by
    rcases hbase.rooted with hnil | hroot
    · refine ⟨[], fun d hd => (List.not_mem_nil hd).elim, by rw [hnil]; rfl, ?_⟩
      exact merge_nil (by rw [ha]; rfl) hnil _
    · obtain ⟨p, hp⟩ : ∃ p, (parse base).path = 0x2f :: p := ⟨_, List.eq_cons_of_mem_head? hroot⟩
      obtain ⟨ds, f, hds, hf, hpath⟩ := exists_dirs p
      refine ⟨ds, hds, ?_, merge_dirs hf (by rw [hp, hpath]) _⟩
      rw [hp, List.drop_one, List.tail_cons, hpath, dirs_joinDirs hds hf]
  obtain ⟨ds, hds, hdirs, hmerge⟩ := hmerge
  have hremove := removeDotSegments_ups _ hds (ups (parse rel).path).1 h.dots
  rw [ups_text, ← hmerge] at hremove
  have hres : (parse base).resolve (parse rel) = { parse base with
      path := removeDotSegments (merge (parse base) (parse rel).path)
      query := (parse rel).query, fragment := (parse rel).fragment } := by
    rw [resolve, h.relative, hauth, if_neg (by decide), if_neg (by decide), if_neg hne, if_neg hhead]
  rw [resolved, hres, hremove, hdirs, server, List.append_assoc, ← List.append_assoc (joinDirs _),
    ← List.cons_append]
  rfl

/-- The climb removes what the resolution removes: directories of the path, as many as it asks for,
no `..` among them, and those that stay are those that stay without dot segments. -/
structure Climbs (size : Nat) (u r : Uri) : Prop where
  stays : (ups r.path).1 ≤ (held size u).length
  removes : bytes ".." ∉ (held size u).drop ((held size u).length - (ups r.path).1)
  keeps : Same ((u.resolve r).recompose.length + 1 = size) (leave (ups r.path).1 (held size u))
    (leave (ups r.path).1 (normal (dirs (u.path.drop 1)))) ((ups r.path).2 ++ r.tailText)

/-- When `makeUrl` resolves: a path to cut off, or a query that is not in its way; and a path to
climb in. A server that is called `..` stops the climb where the buffer ends after it. -/
def Resolves (size : Nat) (u r : Uri) : Prop :=
  if r.path.head? = some 0x2f then u.path ≠ [] ∨ u.query = none
  else u.path ≠ [] ∧
    (Climbs size u r ∨ (u.authority = some (bytes "..") ∧ (server u).length + 2 = size))

theorem makeUrl_rooted_iff {size : Nat} {base rel : List Byte} (hostOf : List Byte → List Byte)
    (buf : List Byte) (hb : HttpUrl (parse base)) (h : Reference rel)
    (hfit : (resolved base rel).length < size) (hhead : (parse rel).path.head? = some 0x2f) :
    makeUrl hostOf size buf base rel = some (resolved base rel) ↔
      (parse base).path ≠ [] ∨ (parse base).query = none := by
  obtain ⟨s, a, ha, hserver, hbase⟩ := hb.text
  obtain ⟨-, hne, hrel⟩ := h.text
  have hrelHead : rel.head? = some 0x2f := by
    rw [hrel, List.head?_append_of_ne_nil _ hne, hhead]
  rw [resolved_rooted h hhead, hserver] at hfit ⊢
  have hlen : (s ++ bytes "://" ++ a).length < size - 1 := by
    have := List.length_pos_iff.mpr h.nonempty
    rw [@List.length_append _ _ rel] at hfit
    omega
  obtain ⟨server, hmake, hkept, hlost⟩ :=
    hbase.makeUrl_rooted hostOf buf hlen h.noProtocol hrelHead
  have hquery : (parse base).query.elim [] (0x3f :: ·) = ([] : List Byte) ↔
      (parse base).query = none := by
    cases (parse base).query with
    | none => exact iff_of_true rfl rfl
    | some q => exact iff_of_false (List.cons_ne_nil _ _) (Option.some_ne_none q)
  by_cases hcond : (parse base).path ≠ [] ∨ (parse base).query = none
  · refine iff_of_true ?_ hcond
    rw [hmake, hkept (hcond.imp_right hquery.mpr), strlcat_eq (by omega),
      List.take_of_length_le (by omega)]
  · obtain ⟨hpath, hsome⟩ := not_or.mp hcond
    obtain ⟨more, hmore⟩ := hlost (not_not.mp hpath) (hquery.not.mpr hsome)
    refine iff_of_false (fun heq => ?_) hcond
    rw [hmake] at heq
    have hpre := strlcat_prefix size server rel
    rw [Option.some.inj heq, hmore, List.prefix_append_right_inj] at hpre
    obtain ⟨rest, hrest⟩ := hpre
    rw [← hrest, List.cons_append, List.head?_cons] at hrelHead
    exact absurd hrelHead (by decide)

theorem joinDirs_site (s a : List Byte) :
    joinDirs [s ++ [0x3a], [], a] = s ++ bytes "://" ++ a ++ [0x2f] := by
  rw [joinDirs_cons, joinDirs_cons, joinDirs_cons, joinDirs_nil, List.append_assoc, List.append_assoc,
    List.append_assoc]
  rfl

/-- The scene of a reference, whatever directories are in the buffer. -/
theorem BaseText.scene {base s a path query rel : List Byte} (hbase : BaseText base s a path query)
    (h : Reference rel) (k : Nat) (hs : List (List Byte)) (hplain : ∀ d ∈ hs, Uri.Plain d) :
    ∃ es f, (ups (parse rel).path).2 = joinDirs es ++ f ∧
      Scene (s ++ [0x3a]) a hs (leave k (normal (dirs (path.drop 1)))) es f (parse rel).tailText := by
  obtain ⟨es, f, hes, hf, hrest⟩ := exists_dirs (ups (parse rel).path).2
  obtain ⟨ds, g, hds, hg, hpath⟩ := exists_dirs (path.drop 1)
  have hdots := h.dots
  rw [hrest, splitOn_joinDirs hes hf] at hdots
  have hrestPlain := plain_of_path hes hf fun c hc => (wellFormed_parse rel).path c <| by
    rw [← ups_text (parse rel).path, hrest]
    exact List.mem_append_right _ hc
  have hpathPlain := plain_of_path hds hg fun c hc => hbase.inPath c <| by
    rw [← hpath] at hc
    exact List.mem_of_mem_drop hc
  rw [hpath, dirs_joinDirs hds hg]
  refine ⟨es, f, hrest, ?_, ?_, by simp, hbase.inAuth, hplain, fun d hd => ?_, fun d hd => ?_,
    hrestPlain.1, hrestPlain.2, hdots, tailText_head _⟩
  · intro hmem
    rcases List.mem_append.mp hmem with hmem | hmem
    · exact hbase.scheme_no (by decide) (by decide) hmem
    · exact absurd hmem (by decide)
  · intro hmem
    rcases List.mem_append.mp hmem with hmem | hmem
    · exact hbase.scheme_no (by decide) (by decide) hmem
    · exact absurd hmem (by decide)
  · exact hpathPlain.1 d (mem_of_mem_normal (List.mem_of_mem_take hd))
  · exact normal_noDots ds d (List.mem_of_mem_take hd)

theorem makeUrl_climb_iff {size : Nat} {base rel : List Byte} (hostOf : List Byte → List Byte)
    (buf : List Byte) (hb : HttpUrl (parse base)) (h : Reference rel)
    (hfit : (resolved base rel).length < size) (hhead : (parse rel).path.head? ≠ some 0x2f) :
    makeUrl hostOf size buf base rel = some (resolved base rel) ↔
      (parse base).path ≠ [] ∧ (Climbs size (parse base) (parse rel) ∨
        ((parse base).authority = some (bytes "..") ∧ (server (parse base)).length + 2 = size)) := by
  obtain ⟨s, a, ha, hserver, hbase⟩ := hb.text
  obtain ⟨-, hne, hrel⟩ := h.text
  have hrelHead : rel.head? ≠ some 0x2f := by
    rwa [hrel, List.head?_append_of_ne_nil _ hne]
  have hres := resolved_climb hb h hhead
  rw [hserver, List.append_cons, ← joinDirs_site] at hres
  have hroot : (s ++ bytes "://" ++ a).length < size - 1 := by
    rw [hres, List.length_append, joinDirs_site, List.length_append, List.length_singleton] at hfit
    omega
  have hups : rel = joinDirs (List.replicate (ups (parse rel).path).1 (bytes "..")) ++
      ((ups (parse rel).path).2 ++ (parse rel).tailText) := by
    rw [← List.append_assoc, ups_text, ← hrel]
  rcases hbase.rooted with hnil | hslash
  · obtain ⟨es, f, hrest, hscene⟩ := hbase.scene h (ups (parse rel).path).1 []
      fun d hd => (List.not_mem_nil hd).elim
    refine iff_of_false (fun heq => ?_) fun hand => hand.1 hnil
    have hbody : (s ++ bytes "://" ++ a ++ (parse base).path).take (size - 1) =
        joinDirs [s ++ [0x3a], []] ++ a := by
      rw [hnil, List.append_nil, List.take_of_length_le hroot.le, joinDirs_cons, joinDirs_cons,
        joinDirs_nil, List.append_assoc, List.append_assoc, List.append_assoc]
      rfl
    rw [hbase.makeUrl_climb hostOf size buf h.noProtocol hrelHead hscene.inAuth.slash hbody,
      hres] at heq
    conv at heq => lhs; rw [hups]
    rw [hrest, List.append_assoc (joinDirs es)] at heq
    exact climb_lost hscene.name_slash hscene.name_dot hscene.name_ne hscene.not_up _ (by omega)
      (Option.some.inj heq)
  · obtain ⟨p, hp⟩ : ∃ p, (parse base).path = 0x2f :: p := ⟨_, List.eq_cons_of_mem_head? hslash⟩
    obtain ⟨m, hm⟩ : ∃ m, size - 1 - (s ++ bytes "://" ++ a).length = m + 1 :=
      ⟨size - 1 - (s ++ bytes "://" ++ a).length - 1, by omega⟩
    obtain ⟨hs, g, hslashless, hg, hpath⟩ := exists_dirs (p.take m)
    have hheld : held size (parse base) = hs := by
      rw [held, hserver, hm, hp, List.take_succ_cons, List.drop_one, List.tail_cons, hpath,
        dirs_joinDirs hslashless hg]
    have hplain := plain_of_path hslashless hg fun c hc => hbase.inPath c <| by
      rw [← hpath] at hc
      rw [hp]
      exact List.mem_cons_of_mem _ (List.mem_of_mem_take hc)
    obtain ⟨es, f, hrest, hscene⟩ := hbase.scene h (ups (parse rel).path).1 hs hplain.1
    have hbody : (s ++ bytes "://" ++ a ++ (parse base).path).take (size - 1) =
        joinDirs ([s ++ [0x3a], [], a] ++ hs) ++ g := by
      rw [List.take_append, List.take_of_length_le hroot.le, hm, hp, List.take_succ_cons, hpath,
        joinDirs_append, joinDirs_site, List.append_assoc _ (joinDirs hs), List.append_cons]
    have hroom : (joinDirs ([s ++ [0x3a], [], a] ++ hs)).length < size := by
      have hle := List.length_take_le (size - 1) (s ++ bytes "://" ++ a ++ (parse base).path)
      rw [hbody, List.length_append] at hle
      omega
    have hright : resolved base rel = joinDirs ([s ++ [0x3a], [], a] ++
        leave (ups (parse rel).path).1 (normal (dirs ((parse base).path.drop 1)))) ++
          (joinDirs es ++ (f ++ (parse rel).tailText)) := by
      rw [hres, hrest, joinDirs_append, List.append_assoc (joinDirs es), List.append_assoc]
    have hnonempty : (ups (parse rel).path).1 = 0 → joinDirs es ++ (f ++ (parse rel).tailText) ≠ [] := by
      intro hzero hnil
      rw [hzero, hrest, List.append_assoc, hnil] at hups
      exact h.nonempty hups
    have hiff := hscene.climb_iff hroom (hright ▸ hfit) hnonempty
    have hmake := hbase.makeUrl_climb hostOf size buf h.noProtocol hrelHead hg hbody
    conv at hmake => rhs; rw [hups, hrest, List.append_assoc (joinDirs es)]
    have hserverEnd : (joinDirs [s ++ [0x3a], [], a]).length + 1 = size ↔
        (server (parse base)).length + 2 = size := by
      rw [joinDirs_site, hserver, List.length_append, List.length_singleton]
    have hfull : (joinDirs ([s ++ [0x3a], [], a] ++
        leave (ups (parse rel).path).1 (normal (dirs ((parse base).path.drop 1)))) ++
          (joinDirs es ++ (f ++ (parse rel).tailText))).length =
        ((parse base).resolve (parse rel)).recompose.length := by
      rw [← hright, resolved]
    have ht : (ups (parse rel).path).2 ++ (parse rel).tailText =
        joinDirs es ++ (f ++ (parse rel).tailText) := by
      rw [hrest, List.append_assoc]
    rw [hmake, Option.some_inj, hright, hiff, hserverEnd, ha, Option.some_inj, hfull]
    subst hheld
    refine ⟨fun hcase => ⟨by rw [hp]; exact List.cons_ne_nil _ _, hcase.imp_left fun hc => ?_⟩,
      fun hcase => hcase.2.imp_left fun hc => ⟨hc.stays, hc.removes, ?_⟩⟩
    · exact ⟨hc.1, hc.2.1, by rw [ht]; exact hc.2.2⟩
    · rw [← ht]
      exact hc.keeps

/-- The whole of `makeUrl` on a server: when it gives the resolution of the reference. -/
theorem makeUrl_iff {size : Nat} {base rel : List Byte} (hostOf : List Byte → List Byte)
    (buf : List Byte) (hb : HttpUrl (parse base)) (h : Reference rel)
    (hfit : (resolved base rel).length < size) :
    makeUrl hostOf size buf base rel = some (resolved base rel) ↔
      Resolves size (parse base) (parse rel) := by
  unfold Resolves
  split
  · rename_i hhead
    exact makeUrl_rooted_iff hostOf buf hb h hfit hhead
  · rename_i hhead
    exact makeUrl_climb_iff hostOf buf hb h hfit hhead

theorem makeUrl_iff_query :
    makeUrl (fun _ => []) maxUrlSize [] (bytes "http://h/a/b/list.m3u8?x=/1") (bytes "../c/1.ts") =
        some (resolved (bytes "http://h/a/b/list.m3u8?x=/1") (bytes "../c/1.ts")) ↔
      Resolves maxUrlSize (parse (bytes "http://h/a/b/list.m3u8?x=/1")) (parse (bytes "../c/1.ts")) :=
  makeUrl_iff (fun _ => []) []
    ⟨⟨bytes "http", by decide +kernel, .inl (by decide)⟩, ⟨bytes "h", by decide +kernel, by decide⟩,
      by decide +kernel⟩
    ⟨by decide, by decide +kernel, by decide +kernel, by decide +kernel, by decide, by decide, by decide +kernel⟩
    (by decide +kernel)

/-- The server is lost where the reference climbs over the path. -/
theorem makeUrl_over :
    HttpUrl (parse (bytes "http://h/x/list.m3u8")) ∧ Reference (bytes "../../a.ts") ∧
      (resolved (bytes "http://h/x/list.m3u8") (bytes "../../a.ts")).length < maxUrlSize ∧
      resolved (bytes "http://h/x/list.m3u8") (bytes "../../a.ts") = bytes "http://h/a.ts" ∧
      makeUrl (fun _ => []) maxUrlSize [] (bytes "http://h/x/list.m3u8") (bytes "../../a.ts") =
        some (bytes "http://a.ts") := by
  refine ⟨⟨⟨bytes "http", ?_, .inl ?_⟩, ⟨bytes "h", ?_, ?_⟩, ?_⟩, ⟨?_, ?_, ?_, ?_, ?_, ?_, ?_⟩,
    ?_, ?_, ?_⟩
  all_goals decide +kernel

end VendorAmlogic.Hls
