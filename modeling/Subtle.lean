import Subtle.Auth.Accounts
import Subtle.Auth.Colleges
import Subtle.Auth.Email
import Subtle.Auth.Form
import Subtle.Auth.Names
import Subtle.Auth.Register
import Subtle.Auth.Session
import Subtle.Auth.Universities
import Subtle.Chat.BothEnds
import Subtle.Chat.ChatList
import Subtle.Chat.ChatLog
import Subtle.Chat.Draft
import Subtle.Chat.Entries
import Subtle.Chat.Live
import Subtle.Chat.LiveList
import Subtle.Chat.Logs
import Subtle.Chat.Names
import Subtle.Chat.People
import Subtle.Chat.Recents
import Subtle.Chat.Send
import Subtle.Feed.AgeFilter
import Subtle.Feed.Apart
import Subtle.Feed.Arrival
import Subtle.Feed.Authority
import Subtle.Feed.BothSaves
import Subtle.Feed.CatchUp
import Subtle.Feed.CommentList
import Subtle.Feed.CommentSending
import Subtle.Feed.Comments
import Subtle.Feed.EditForm
import Subtle.Feed.Edits
import Subtle.Feed.FeedVM
import Subtle.Feed.FeedView
import Subtle.Feed.FilteredFeed
import Subtle.Feed.Likes
import Subtle.Feed.Loads
import Subtle.Feed.Location
import Subtle.Feed.Pictures
import Subtle.Feed.Post
import Subtle.Feed.PostingRules
import Subtle.Feed.Save
import Subtle.Feed.Screens
import Subtle.Feed.Sessions
import Subtle.Feed.Shown
import Subtle.Feed.Submission
import Subtle.Feed.System
import Subtle.Feed.Universities
import Subtle.Firestore.Access
import Subtle.Firestore.Conversation
import Subtle.Firestore.Rules
import Subtle.Firestore.Value
import Subtle.Index.Live
import Subtle.Index.Rebuild
import Subtle.Index.Reorder
import Subtle.Index.Triggers
import Subtle.Lib.Clients
import Subtle.Lib.Conservation
import Subtle.Lib.Footprint
import Subtle.Lib.Formula
import Subtle.Lib.Gregorian
import Subtle.Lib.Issuers
import Subtle.Lib.Lexical
import Subtle.Lib.Machine
import Subtle.Lib.Observed
import Subtle.Lib.Overwrite
import Subtle.Lib.Parsing
import Subtle.Lib.Positions
import Subtle.Lib.Provenance
import Subtle.Lib.Recency
import Subtle.Lib.Retention
import Subtle.Lib.Rounding
import Subtle.Lib.Separated
import Subtle.Lib.Snapshot
import Subtle.Search.Filter
import Subtle.Search.Found
import Subtle.Search.Handler
import Subtle.Search.Literal
import Subtle.Search.Literals
import Subtle.Search.Meaning
import Subtle.Search.Number
import Subtle.Search.Parse
import Subtle.Search.Query
import Subtle.Storage.Batch
import Subtle.Storage.Upload
