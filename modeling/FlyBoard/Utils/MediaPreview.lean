import FlyBoard.Db.PublicPaths
import FlyBoard.Lib.ShellWords

/-!
# The commands of media previews (`src/utils/media_preview.c`)

Thumbnails and previews are made by `ffmpeg`, which is run through `popen`. A path stands in
single quotes with its own quotes escaped, so the shell hands it over as one argument, whatever
it is.
-/

namespace FlyBoard.MediaPreview

open Bytes PublicPaths ShellWords

/-- `validate_media_path` -/
def validateMediaPath (path : Bytes) : Bool :=
  !path.isEmpty && fbIsSafePublicPath (some path) &&
    path.all (· ∉ [59, 39, 34, 96, 124, 38, 60, 62, 40, 41, 123, 125, 91, 93, 36, 92, 10, 13])

/-- A preview that is asked for, with the largest width and height, the height alone, or the rate
of a sound. -/
inductive Call where
  | imageThumb (src dst : Bytes) (maxW maxH : ℤ)
  | gifThumb (src dst : Bytes) (maxW maxH fps : ℤ)
  | staticAssetWebp (src dst : Bytes) (maxW maxH : ℤ)
  | videoThumb (src dst : Bytes) (maxW maxH : ℤ)
  | videoPreview (src dst : Bytes) (maxH : ℤ)
  | webmPreview (src dst : Bytes) (maxH : ℤ)
  | audioPreview (src dst : Bytes) (bitrateKbps : ℤ)

def path (p : Bytes) : Word := .quoted [.arg p]

def ffmpeg : List Word := plains ["ffmpeg", "-hide_banner", "-loglevel", "error", "-threads", "1"]

def scale (maxW maxH : ℤ) : List Part :=
  [.text (bytes "scale="), .number maxW, .text (bytes ":"), .number maxH,
    .text (bytes ":force_original_aspect_ratio=decrease")]

def heightFilter (maxH : ℤ) : Word :=
  .quoted [.text (bytes "scale=-2:min("), .number maxH, .text (bytes "\\,ih)")]

def webp (src dst : Bytes) (maxW maxH : ℤ) (quality compression : String) : List Word :=
  ffmpeg ++ .plain (bytes "-i") :: path src :: .plain (bytes "-vf") :: .quoted (scale maxW maxH) ::
    plains ["-frames:v", "1", "-c:v", "libwebp", "-quality", quality, "-compression_level",
      compression, "-y"] ++ [path dst]

/-- `generate_image_thumb` -/
def generateImageThumb (src dst : Bytes) (maxW maxH : ℤ) : List Word :=
  webp src dst maxW maxH (if hasSub src (bytes "uploads") then "82" else "60") "5"

/-- `generate_static_asset_webp`, before its fallback -/
def generateStaticAssetWebp (src dst : Bytes) (maxW maxH : ℤ) : List Word :=
  webp src dst maxW maxH "55" "6"

/-- `generate_gif_thumb` -/
def generateGifThumb (src dst : Bytes) (maxW maxH fps : ℤ) : List Word :=
  let fpsScale := [.text (bytes "[0:v]fps="), .number fps, .text (bytes ",")] ++
    scale maxW maxH
  ffmpeg ++ .plain (bytes "-i") :: path src :: .plain (bytes "-filter_complex") ::
    .quoted (fpsScale ++ .text (bytes ":flags=lanczos,palettegen=stats_mode=diff[p];") ::
      fpsScale ++ [.text (bytes ":flags=lanczos[x];[x][p]paletteuse=dither=bayer:bayer_scale=3")]) ::
    plains ["-loop", "0", "-y"] ++ [path dst]

/-- `generate_video_thumb`: a frame at one second, or else the first one. -/
def generateVideoThumb (src dst : Bytes) (maxW maxH : ℤ) : List (List Word) :=
  [["-ss", "00:00:01"], []].map fun seek =>
    ffmpeg ++ plains seek ++ .plain (bytes "-i") :: path src :: plains ["-vframes", "1", "-vf"] ++
      .quoted (scale maxW maxH) :: plains ["-q:v", "3", "-y"] ++ [path dst]

def preview (src dst : Bytes) (maxH : ℤ) (options : List String) : List Word :=
  ffmpeg ++ .plain (bytes "-i") :: path src :: .plain (bytes "-vf") :: heightFilter maxH ::
    plains options ++ [path dst]

/-- `generate_video_preview` -/
def generateVideoPreview (src dst : Bytes) (maxH : ℤ) : List Word :=
  preview src dst maxH ["-c:v", "libx264", "-preset", "veryfast", "-crf", "23", "-pix_fmt",
    "yuv420p", "-c:a", "aac", "-b:a", "160k", "-movflags", "+faststart", "-y"]

/-- `generate_webm_preview` -/
def generateWebmPreview (src dst : Bytes) (maxH : ℤ) : List Word :=
  preview src dst maxH ["-c:v", "libvpx", "-crf", "10", "-b:v", "1M", "-an", "-y"]

/-- `generate_audio_preview` -/
def generateAudioPreview (src dst : Bytes) (bitrateKbps : ℤ) : List Word :=
  ffmpeg ++ .plain (bytes "-i") :: path src :: .plain (bytes "-b:a") ::
    .plain (decimalInt bitrateKbps ++ bytes "k") :: plains ["-f", "mp3", "-y"] ++ [path dst]

def Call.paths : Call → Bytes × Bytes
  | imageThumb src dst _ _ | gifThumb src dst _ _ _ | staticAssetWebp src dst _ _
  | videoThumb src dst _ _ | videoPreview src dst _ | webmPreview src dst _
  | audioPreview src dst _ => (src, dst)

def Call.sizes : Call → List ℤ
  | gifThumb _ _ maxW maxH fps => [maxW, maxH, fps]
  | imageThumb _ _ maxW maxH | staticAssetWebp _ _ maxW maxH | videoThumb _ _ maxW maxH =>
    [maxW, maxH]
  | videoPreview _ _ n | webmPreview _ _ n | audioPreview _ _ n => [n]

def Call.allowed (c : Call) : Bool :=
  c.sizes.all (0 < ·) && validateMediaPath c.paths.1 && validateMediaPath c.paths.2

/-- The commands that a call may run, the second when the first has failed. -/
def Call.commands : Call → List (List Word)
  | imageThumb src dst maxW maxH => [generateImageThumb src dst maxW maxH]
  | gifThumb src dst maxW maxH fps => [generateGifThumb src dst maxW maxH fps]
  | staticAssetWebp src dst maxW maxH => [generateStaticAssetWebp src dst maxW maxH]
  | videoThumb src dst maxW maxH => generateVideoThumb src dst maxW maxH
  | videoPreview src dst maxH => [generateVideoPreview src dst maxH]
  | webmPreview src dst maxH => [generateWebmPreview src dst maxH]
  | audioPreview src dst bitrateKbps => [generateAudioPreview src dst bitrateKbps]

def timeout : List Word := plains ["timeout", "15", "nice", "-n", "10"]

/-- What `run_ffmpeg` gives to `popen`. -/
def runFfmpeg (cmd : Bytes) : Bytes := (bytes "timeout 15 nice -n 10 " ++ cmd).take 8191

/-- The longest command that is not cut short: that of a GIF has a buffer of its own length, and
any other one of 4096 bytes. -/
def Call.room : Call → ℕ
  | gifThumb .. => 8191 - 22
  | _ => 4095

def Call.buffered : Call → List Word → Bytes
  | gifThumb .., ws => command ws
  | _, ws => (command ws).take 4095

/-- What a call gives to `popen` at most. -/
def Call.popened (c : Call) : List Bytes :=
  if c.allowed then c.commands.map fun ws => runFfmpeg (c.buffered ws) else []

/-! ## The shell hands over the paths -/

theorem isPlain_decimalInt (n : ℤ) : ∀ c ∈ decimalInt n, isPlain c = true := by
  have hdigits : ∀ c ∈ decimal n.natAbs, isPlain c = true := fun c hc => by
    simp [isPlain, isDigit_of_mem_decimal hc]
  unfold decimalInt
  split
  · exact List.forall_mem_cons.mpr ⟨by decide, hdigits⟩
  · exact hdigits

theorem sound_commands (c : Call) : ∀ ws ∈ c.commands, (timeout ++ ws).all Word.sound = true := by
  cases c with
  | imageThumb src dst maxW maxH =>
    refine List.forall_mem_singleton.mpr ?_
    unfold generateImageThumb
    split <;> rfl
  | videoThumb src dst maxW maxH =>
    refine List.forall_mem_cons.mpr ⟨rfl, List.forall_mem_singleton.mpr rfl⟩
  | audioPreview src dst bitrateKbps =>
    refine List.forall_mem_singleton.mpr ?_
    have hrate : (Word.plain (decimalInt bitrateKbps ++ bytes "k")).sound = true := by
      rw [Word.sound, List.all_append, List.all_eq_true.mpr (isPlain_decimalInt _)]
      simp [bytes, isPlain, isLower]
    simp only [generateAudioPreview, List.all_append, List.all_cons, hrate]
    rfl
  | gifThumb | staticAssetWebp | videoPreview | webmPreview =>
    exact List.forall_mem_singleton.mpr rfl

theorem command_timeout {c : Call} {ws : List Word} (h : ws ∈ c.commands) :
    command (timeout ++ ws) = bytes "timeout 15 nice -n 10 " ++ command ws := by
  -- each of them begins with the name of the program
  have hcons : ∃ rest, ws = .plain (bytes "ffmpeg") :: rest := by
    cases c with
    | videoThumb src dst maxW maxH =>
      rcases List.mem_pair.mp h with rfl | rfl <;> exact ⟨_, rfl⟩
    | imageThumb | gifThumb | staticAssetWebp | videoPreview | webmPreview | audioPreview =>
      rw [List.mem_singleton.mp h]
      exact ⟨_, rfl⟩
  obtain ⟨rest, rfl⟩ := hcons
  rfl

/-- The shell reads every command as it is meant: each path is one argument, as it is. -/
theorem split_runFfmpeg (c : Call) (ws : List Word) (hws : ws ∈ c.commands)
    (hfits : (command ws).length ≤ c.room) :
    split (runFfmpeg (c.buffered ws)) = some ((timeout ++ ws).map Word.value) := by
  have htimeout : (bytes "timeout 15 nice -n 10 ").length = 22 := by decide
  have hbuffer : c.buffered ws = command ws := by
    cases c with
    | gifThumb => rfl
    | imageThumb | videoThumb | staticAssetWebp | videoPreview | webmPreview | audioPreview =>
      exact List.take_of_length_le hfits
  have hroom : c.room ≤ 8169 := by cases c <;> simp [Call.room]
  have hcommand : runFfmpeg (command ws) = command (timeout ++ ws) := by
    rw [runFfmpeg, List.take_of_length_le, command_timeout hws]
    rw [List.length_append]
    omega
  rw [hbuffer, hcommand]
  exact split_command (sound_commands c ws hws)

/-- A path that would end a quote. -/
theorem split_runFfmpeg_quote :
    split (runFfmpeg ((Call.webmPreview (bytes "a' -y b") (bytes "c") 720).buffered
        (generateWebmPreview (bytes "a' -y b") (bytes "c") 720))) =
      some ((timeout ++ generateWebmPreview (bytes "a' -y b") (bytes "c") 720).map Word.value) :=
  split_runFfmpeg (.webmPreview (bytes "a' -y b") (bytes "c") 720) _ (List.mem_singleton_self _)
    (by decide +kernel)

end FlyBoard.MediaPreview
