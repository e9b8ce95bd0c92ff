import FirebaseApps.Lib.Callback
import FirebaseApps.Firebase.Backend
import FirebaseApps.SociallyUIKit.Post
import FirebaseApps.SociallyUIKit.System
import FirebaseApps.SociallyUIKit.Provenance
import FirebaseApps.SociallyUIKit.Writes
import FirebaseApps.SociallyUIKit.Resurrection
import FirebaseApps.SociallyUIKit.Attribution
import FirebaseApps.Lib.Fresh
import FirebaseApps.SociallyUIKit.Publications
import FirebaseApps.SociallyUIKit.Images
import FirebaseApps.Firebase.Changes
import FirebaseApps.SociallyUIKit.Edits
import FirebaseApps.SociallyApp.Uploads
import FirebaseApps.SociallyApp.ProfileImages
import FirebaseApps.SociallyApp.Posts
import FirebaseApps.AppleSignIn.SignIn
import FirebaseApps.AppleSignIn.Nonces
import FirebaseApps.Lib.Calls
import FirebaseApps.NoteApp.Operations
import FirebaseApps.NoteApp.System
import FirebaseApps.NoteApp.Moves
import FirebaseApps.NoteApp.Accounts
import FirebaseApps.Lib.Replay
import FirebaseApps.NoteApp.Collection
import FirebaseApps.NoteApp.NoteList
import FirebaseApps.AppleSignIn.RandomNonce
import FirebaseApps.Lib.Answers
import FirebaseApps.SociallyUIKit.Completions
import FirebaseApps.SociallyUIKit.Decoding
import FirebaseApps.SociallyUIKit.Thumbnails
import FirebaseApps.Lib.Alone
import FirebaseApps.Composers.Leftovers
import FirebaseApps.SociallyUIKit.Deletion
import FirebaseApps.Composing.Composer
import FirebaseApps.SociallyUIKit.NewPostViewController
import FirebaseApps.Composing.OneUpload
import FirebaseApps.SociallyApp.AuthState
import FirebaseApps.Listeners.Registrations
import FirebaseApps.Lib.Settling
import FirebaseApps.SociallyUIKit.PostTableViewCell
import FirebaseApps.SociallyUIKit.FeedSettles
import FirebaseApps.Composing.Events
import FirebaseApps.Composing.LastPick
import FirebaseApps.SociallyApp.ProfileView
import FirebaseApps.SociallyUIKit.Placeholder
import FirebaseApps.SociallyApp.PublishedUser
import FirebaseApps.NoteApp.Profiles
import FirebaseApps.SociallyApp.Traps
import FirebaseApps.Firebase.Query
import FirebaseApps.Lib.Board
import FirebaseApps.Lib.Interleaving
import FirebaseApps.SociallyApp.FeedView
import FirebaseApps.SociallyUIKit.Board
import FirebaseApps.SociallyUIKit.ReadBack
import FirebaseApps.Apps.Quiescence
import FirebaseApps.SociallyUIKit.PostDetailViewController
import FirebaseApps.SociallyUIKit.Session
import FirebaseApps.AppleSignIn.Hashing
import FirebaseApps.NoteApp.Drafts
